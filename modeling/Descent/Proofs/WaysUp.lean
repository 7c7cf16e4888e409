import Descent.Proofs.Beginnings
import Descent.Proofs.Callers
import Descent.Proofs.Owners

/-
  Ways up from an expansion.

  What follows an expansion is found on the way up.  Each step
  leads to the owner, and in between matches grow by the rest of
  a sequence or by a body that is tried again; from a body it
  leads to all calls of its production.  Walks through what comes
  in between keep the matches that they do not make longer, and
  they leave the marks of the expansions alone.

  Main declarations:
    * `Grammar.Tokenful`, `Prefixes.Keeps` and `Prefixes.Spares`
    * `Grammar.between`, `Grammar.Passes` and `Grammar.Gains`
    * `Prefixes.takes_between` and `Prefixes.spares_between`
    * `Prefixes.run_followSetTo_succ`
    * `Prefixes.Mapped`, `Prefixes.Mapped.placed` and
      `Prefixes.Mapped.divides`
-/

------------------------------------------------------------
-- Matches that are kept
------------------------------------------------------------

namespace Descent

open scoped Computability

/- A token stands in an expansion, or in what it calls. -/
inductive Grammar.Tokenful
    (g : Grammar) : ExpId → Prop where
  | token
      {id : ExpId}
      {r : RegexId}
      {result member : Option String}
      (hToken : g.form id = .terminal r result member) :
      Tokenful g id
  | part
      {part whole : ExpId}
      (hChild : g.ChildOf part whole)
      (hPart : Tokenful g part) :
      Tokenful g whole
  | call
      {id body : ExpId}
      {name args : String}
      {result : Option String}
      (hCall : g.form id = .nonterminal name result args)
      (hDefines : g.Defines name body)
      (hBody : Tokenful g body) :
      Tokenful g id

namespace Prefixes

/-
  A walk hands on matches that it was given, and if it can make
  them longer, new ones.  It marks no expansion.
-/
structure Keeps
    (grows : Prop)
    (ms : List Match)
    (w : Progress)
    (r : List Match × Progress) : Prop where
  kept : ∀ m ∈ r.1, m ∈ ms ∨
    grows ∧ w.nextId < m.id ∧
      ∃ m₀ ∈ ms, m₀.tokens.length < m.tokens.length
  next : w.nextId ≤ r.2.nextId
  marks : r.2.marks = w.marks
  round : r.2.nextRound = w.nextRound

section Keeps

variable {grows grows' : Prop} {ms : List Match} {w : Progress}
variable {r r' : List Match × Progress}

theorem keeps_return
    (ms : List Match)
    (w : Progress) :
    Keeps grows ms w (ms, w) where
  kept _ hm := .inl hm
  next := le_rfl
  marks := rfl
  round := rfl

theorem keeps_none
    (ms : List Match)
    (w : Progress) :
    Keeps grows ms w ([], w) where
  kept _ hm := nomatch hm
  next := le_rfl
  marks := rfl
  round := rfl

theorem Keeps.mono
    (hKeeps : Keeps grows ms w r)
    (hGrows : grows → grows') :
    Keeps grows' ms w r where
  kept m hm := (hKeeps.kept m hm).imp_right (And.imp_left hGrows)
  next := hKeeps.next
  marks := hKeeps.marks
  round := hKeeps.round

/- One walk goes on with what another one has returned. -/
theorem Keeps.andThen
    (hFirst : Keeps grows ms w r)
    (hSecond : Keeps grows r.1 r.2 r') :
    Keeps grows ms w r' where
  kept m hm := by
    rcases hSecond.kept m hm with
      hOld | ⟨hGrows, hNew, m₁, hm₁, hLonger⟩
    · exact hFirst.kept m hOld
    · refine .inr ⟨hGrows, hFirst.next.trans_lt hNew, ?_⟩
      rcases hFirst.kept m₁ hm₁ with
        hOld | ⟨-, -, m₀, hm₀, hLonger'⟩
      · exact ⟨m₁, hOld, hLonger⟩
      · exact ⟨m₀, hm₀, hLonger'.trans hLonger⟩
  next := hFirst.next.trans hSecond.next
  marks := hSecond.marks.trans hFirst.marks
  round := hSecond.round.trans hFirst.round

/- Two walks start with the same matches. -/
theorem Keeps.orElse
    (hFirst : Keeps grows ms w r)
    (hSecond : Keeps grows ms r.2 r') :
    Keeps grows ms w (r.1 ++ r'.1, r'.2) where
  kept m hm := by
    rcases List.mem_append.mp hm with hHere | hThere
    · exact hFirst.kept m hHere
    · exact (hSecond.kept m hThere).imp_right fun h =>
        ⟨h.1, hFirst.next.trans_lt h.2.1, h.2.2⟩
  next := hFirst.next.trans hSecond.next
  marks := hSecond.marks.trans hFirst.marks
  round := hSecond.round.trans hFirst.round

end Keeps

/- A walk keeps all matches that it does not make longer. -/
def Spares
    (grows : Prop)
    (walk : List Match → Walk (List Match)) : Prop :=
  ∀ ms w, Keeps grows ms w ((walk ms).run w)

section Spares

variable {grows grows' : Prop}
variable {walk : List Match → Walk (List Match)}
variable {step : List Match → ExpId → Walk (List Match)}

theorem Spares.mono
    (hSpares : Spares grows walk)
    (hGrows : grows → grows') :
    Spares grows' walk :=
  fun ms w => (hSpares ms w).mono hGrows

/- Matches are handed on beside those that grow. -/
theorem spares_beside
    (hSpares : Spares grows walk) :
    Spares grows fun ms => do
      let more ← walk ms
      return ms ++ more :=
  fun ms w => (keeps_return ms w).orElse (hSpares ms w)

/- A token is added to every match. -/
theorem spares_grow
    (hGrows : grows)
    (limit : Nat)
    (kind : Kind) :
    Spares grows (grow limit kind) := by
  intro ms w
  induction ms generalizing w with
  | nil => exact keeps_none [] w
  | cons m ms ih =>
      rw [run_grow_cons]
      let longer : Match := ⟨w.nextId + 1, m.tokens ++ [kind]⟩
      have hOne : Keeps grows [m] w ((grow limit kind [m]).run w) := by
        have hLonger : ∀ m' ∈ [longer], m' ∈ [m] ∨
            grows ∧ w.nextId < m'.id ∧
              ∃ m₀ ∈ [m], m₀.tokens.length < m'.tokens.length := by
          intro m' hm'
          rw [List.mem_singleton.mp hm']
          exact .inr ⟨hGrows, Nat.lt_succ_self _, m,
            List.mem_singleton_self m, by simp [longer]⟩
        rw [run_grow_one]
        dsimp only
        split
        · exact ⟨List.forall_mem_nil _, Nat.le_succ _, rfl, rfl⟩
        · exact ⟨hLonger, Nat.le_succ _, rfl, rfl⟩
      have hWider : ∀ {ms' : List Match} {w' : Progress}
          {r : List Match × Progress}, ms' ⊆ m :: ms →
          Keeps grows ms' w' r → Keeps grows (m :: ms) w' r := by
        intro ms' w' r hSubset hKeeps
        refine ⟨fun m' hm' => ?_, hKeeps.next, hKeeps.marks,
          hKeeps.round⟩
        refine (hKeeps.kept m' hm').imp (fun h => hSubset h) ?_
        rintro ⟨hHere, hNew, m₀, hm₀, hLess⟩
        exact ⟨hHere, hNew, m₀, hSubset hm₀, hLess⟩
      exact (hWider (by simp) hOne).orElse
          (hWider (List.subset_cons_self m ms) (ih _))

theorem spares_across
    {alternatives : List ExpId}
    (hStep : ∀ alt ∈ alternatives, Spares grows (step · alt)) :
    Spares grows (across step · alternatives) := by
  intro ms w
  induction alternatives generalizing w with
  | nil => exact keeps_none ms w
  | cons alt alts ih =>
      rw [List.forall_mem_cons] at hStep
      exact (hStep.1 ms w).orElse (ih hStep.2 _)

theorem spares_through
    {units : List ExpId}
    (hStep : ∀ u ∈ units, Spares grows (step · u)) :
    Spares grows (through step · units) := by
  intro ms w
  induction units generalizing ms w with
  | nil => exact keeps_return ms w
  | cons u us ih =>
      rw [List.forall_mem_cons] at hStep
      have hHere := hStep.1 ms w
      dsimp only at hHere ⊢
      rw [through, run_bind]
      split
      · exact hHere.andThen (keeps_none _ _)
      · exact hHere.andThen (ih hStep.2 _ _)

theorem spares_again
    (hSpares : Spares grows walk)
    (times : Nat) :
    Spares grows (again (return []) walk times) := by
  intro ms w
  induction times generalizing ms w with
  | zero => exact keeps_none ms w
  | succ times ih =>
      have hHere := hSpares ms w
      rw [again, run_bind]
      split
      · exact hHere.andThen (keeps_none _ _)
      · refine hHere.andThen ?_
        exact (keeps_return _ _).orElse (ih _ _)

/- Matches grow in an expansion only if a token stands in it. -/
theorem spares_firstSetTo
    {c : Setting}
    (hNames : c.session.KnowsNames c.grammar)
    (depth : Nat)
    (id : ExpId) :
    Spares (c.grammar.Tokenful id)
      (firstSetTo c (return []) depth · id) := by
  induction depth generalizing id with
  | zero => exact keeps_none
  | succ depth ih =>
      have hParts : ∀ part, c.grammar.ChildOf part id →
          Spares (c.grammar.Tokenful id)
            (firstSetTo c (return []) depth · part) :=
        fun part hChild => (ih part).mono (.part hChild)
      unfold Grammar.ChildOf Grammar.children at hParts
      unfold firstSetTo
      cases hForm : c.grammar.form id with
      | terminal r result member =>
          exact spares_grow (.token hForm) _ _
      | nonterminal name result args =>
          dsimp only
          cases hId : c.session.production? name with
          | none => exact keeps_none
          | some p =>
              rcases (hNames name p).mp hId with ⟨q, hAt, hName⟩
              dsimp only
              rw [c.grammar.production_eq hAt]
              cases hBody : q.body with
              | rules body declarations =>
                  refine (ih body).mono (.call hForm ⟨q,
                    Array.mem_of_getElem? hAt, hName, ?_⟩)
                  rw [Production.expansion?, hBody]
              | code language text =>
                  exact fun ms w => ⟨List.forall_mem_nil _, le_rfl,
                    rfl, rfl⟩
      | sequence units =>
          rw [hForm] at hParts
          exact spares_through hParts
      | choice alternatives =>
          rw [hForm] at hParts
          exact spares_across hParts
      | oneOrMore body =>
          rw [hForm] at hParts
          exact spares_again (hParts body
            (List.mem_singleton_self body)) _
      | zeroOrMore body =>
          rw [hForm] at hParts
          exact spares_beside (spares_again (hParts body
            (List.mem_singleton_self body)) _)
      | zeroOrOne body =>
          rw [hForm] at hParts
          exact spares_beside (hParts body
            (List.mem_singleton_self body))
      | tryBlock body catches cleanup =>
          rw [hForm] at hParts
          exact hParts body (List.mem_singleton_self body)
      | action code => exact keeps_return
      | lookahead la =>
          intro ms w
          dsimp only
          split
          · exact keeps_none ms w
          · exact keeps_return ms w

end Spares

------------------------------------------------------------
-- What comes in between
------------------------------------------------------------

end Prefixes

namespace Grammar

/- What can come between the end of a part and its owner's. -/
def between
    (g : Grammar)
    (owner id : ExpId) : ExpansionLists :=
  match g.form owner with
  | .sequence units => {Prefixes.unitsAfter units id}
  | .oneOrMore _ => 1 + {[id]} * {[id]}∗
  | .zeroOrMore _ => 1 + {[id]} * {[id]}∗
  | _ => 1

/- A token stands in what can come in between. -/
def Fills
    (g : Grammar)
    (owner id : ExpId) : Prop :=
  match g.form owner with
  | .sequence units =>
      ∃ u ∈ Prefixes.unitsAfter units id, g.Tokenful u
  | .oneOrMore _ => g.Tokenful id
  | .zeroOrMore _ => g.Tokenful id
  | _ => False

/- The way up passes an owner or a call without tokens. -/
inductive Passes
    (g : Grammar) : ExpId → ExpId → Prop where
  | owner
      {id owner : ExpId}
      {es : List ExpId}
      (hChild : g.ChildOf id owner)
      (hBetween : es ∈ g.between owner id)
      (hGone : g.Vanishes es) :
      Passes g id owner
  | call
      {body call : ExpId}
      {name args : String}
      {result : Option String}
      (hReachable : g.Reachable call)
      (hCall : g.form call = .nonterminal name result args)
      (hDefines : g.Defines name body) :
      Passes g body call

/- The way up comes by tokens before it is at an owner. -/
structure Gains
    (g : Grammar)
    (id owner : ExpId) : Prop where
  child : g.ChildOf id owner
  fills : g.Fills owner id

/- What is above something reachable is reachable. -/
theorem Owned.reachable_owner
    {g : Grammar}
    (hOwned : g.Owned)
    {id owner : ExpId}
    (hReachable : g.Reachable id)
    (hChild : g.ChildOf id owner) :
    g.Reachable owner := by
  rcases hReachable with ⟨p, hp, body, hBody, hWithin⟩
  rcases Relation.ReflTransGen.cases_head hWithin with
    rfl | ⟨owner', hChild', hRest⟩
  · exact absurd hChild
      (hOwned.roots id (mem_bodies hp hBody) owner)
  · cases hOwned.wholes hChild hChild'
    exact ⟨p, hp, body, hBody, hRest⟩

theorem Passes.reachable
    {g : Grammar}
    (hOwned : g.Owned)
    {id above : ExpId}
    (hPasses : g.Passes id above)
    (hReachable : g.Reachable id) :
    g.Reachable above := by
  cases hPasses with
  | owner hChild hBetween hGone =>
      exact hOwned.reachable_owner hReachable hChild
  | call hCaller hCall hDefines => exact hCaller

/- What is reachable has a place, and is there. -/
theorem Arranged.exists_holds
    {g : Grammar}
    (hArranged : g.Arranged)
    {id : ExpId}
    (hReachable : g.Reachable id) :
    (∃ o, g.Holds id o) ∧ id < g.expansions.size := by
  rcases hReachable with ⟨p, hp, body, hBody, hWithin⟩
  rcases Relation.ReflTransGen.cases_head hWithin with
    rfl | ⟨owner, hChild, -⟩
  · rcases Array.mem_iff_getElem?.mp hp with ⟨i, hAt⟩
    exact ⟨⟨.production i, p, hAt, hBody⟩,
      hArranged.inside id (mem_bodies hp hBody)⟩
  · exact ⟨⟨.node owner, hChild⟩,
      hArranged.nested.inside id owner hChild⟩

end Grammar

namespace Prefixes

/- Let matches grow by what comes in between. -/
def between
    (c : Setting)
    (beyond : Walk (List Match))
    (owner id : ExpId)
    (ms : List Match) : Walk (List Match) :=
  let first := firstSetTo c beyond (firstDepth c)
  let repeated := do
    let more ← again beyond (fun ms => first ms id)
      (timesBound c) ms
    return ms ++ more
  match c.grammar.form owner with
  | .sequence units => through first ms (unitsAfter units id)
  | .oneOrMore _ => repeated
  | .zeroOrMore _ => repeated
  | _ => return ms

theorem mem_of_mem_unitsAfter
    {units : List ExpId}
    {id u : ExpId}
    (hu : u ∈ unitsAfter units id) :
    u ∈ units :=
  (List.dropWhile_sublist _).mem (List.mem_of_mem_drop hu)

section Between

variable {c : Setting} {owner id : ExpId}

theorem spares_between
    (hNames : c.session.KnowsNames c.grammar)
    (owner id : ExpId) :
    Spares (c.grammar.Fills owner id)
      (between c (return []) owner id) := by
  have hAgain : Spares (c.grammar.Tokenful id) fun ms => do
      let more ← again (return [])
        (fun ms => firstSetTo c (return []) (firstDepth c) ms id)
        (timesBound c) ms
      return ms ++ more :=
    spares_beside (spares_again
      (spares_firstSetTo hNames (firstDepth c) id) _)
  unfold between Grammar.Fills
  cases c.grammar.form owner with
  | sequence units =>
      exact spares_through fun u hu =>
        (spares_firstSetTo hNames (firstDepth c) u).mono
          fun hTokenful => ⟨u, hu, hTokenful⟩
  | oneOrMore body => exact hAgain
  | zeroOrMore body => exact hAgain
  | _ => exact keeps_return

/- What comes in between is walked through to its end. -/
theorem takes_between
    (hFlagged : c.session.Flagged c.grammar)
    (hSane : c.grammar.Sane)
    (hOpen : c.stopAtGuards = false)
    (hLimit : 1 ≤ c.limit)
    (hChild : c.grammar.ChildOf id owner)
    (hReachable : c.grammar.Reachable owner)
    (beyond : Walk (List Match)) :
    Takes c.grammar c.limit 0 (c.grammar.between owner id)
      (between c (return []) owner id)
      (between c beyond owner id) := by
  have hFirst : ∀ u, c.grammar.Reachable u →
      Takes c.grammar c.limit 0 {[u]} (firstSet c · u)
        (firstSetTo c beyond (firstDepth c) · u) :=
    fun u hu => takes_firstSet hFlagged hSane hOpen hLimit hu
      beyond
  have hConsumes := hSane.consumes owner hReachable
  have hAgain : ¬ c.grammar.Vanishes [id] →
      Takes c.grammar c.limit 0 (1 + {[id]} * {[id]}∗)
        (fun ms => do
          let more ← again (return []) (fun ms => firstSet c ms id)
            (timesBound c) ms
          return ms ++ more)
        (fun ms => do
          let more ← again beyond
            (fun ms => firstSetTo c beyond (firstDepth c) ms id)
            (timesBound c) ms
          return ms ++ more) := by
    intro hKept
    refine takes_beside (takes_again hKept _ _ ?_
      (hFirst id (hReachable.child hChild)))
    exact Nat.lt_add_right 1 (Nat.lt_succ_of_le (Nat.sub_le _ _))
  unfold Grammar.ChildOf Grammar.children at hChild
  unfold Grammar.Consumes at hConsumes
  unfold between Grammar.between
  cases hForm : c.grammar.form owner with
  | sequence units =>
      have hUnits : ∀ u ∈ unitsAfter units id,
          c.grammar.Reachable u := by
        intro u hu
        exact hReachable.child (Grammar.childOf_of_sequence hForm
          (mem_of_mem_unitsAfter hu))
      apply takes_through
      · rintro before u after hSplit -
        exact hFirst u (hUnits u (by rw [hSplit]; simp))
      · exact fun _ u hu => (hFirst u (hUnits u hu)).mono
          (Nat.zero_le _)
  | oneOrMore body =>
      rw [hForm] at hChild hConsumes
      cases List.mem_singleton.mp hChild
      exact hAgain hConsumes
  | zeroOrMore body =>
      rw [hForm] at hChild hConsumes
      cases List.mem_singleton.mp hChild
      exact hAgain hConsumes
  | _ => exact takes_return

end Between

------------------------------------------------------------
-- Steps up
------------------------------------------------------------

/- An expansion is marked with a round. -/
def Progress.Marked
    (w : Progress)
    (round : Nat)
    (id : ExpId) : Prop :=
  Assoc.get? id w.marks = some round

instance
    (w : Progress)
    (round : Nat)
    (id : ExpId) : Decidable (w.Marked round id) :=
  inferInstanceAs (Decidable (_ = _))

/- An expansion gets a mark. -/
def Progress.withMark
    (w : Progress)
    (round : Nat)
    (id : ExpId) : Progress :=
  { w with marks := Assoc.insert id round w.marks }

theorem marked_withMark
    {w : Progress}
    {round round' : Nat}
    {id e : ExpId} :
    (w.withMark round id).Marked round' e ↔
      e = id ∧ round' = round ∨ e ≠ id ∧ w.Marked round' e := by
  unfold Progress.Marked Progress.withMark Assoc.insert
  rw [Assoc.get?_alter]
  by_cases hHere : e = id
  · simp [hHere, eq_comm]
  · simp [hHere]

/- What is marked after one more mark in a round. -/
theorem marked_of_marks
    {w w' : Progress}
    {round : Nat}
    {id : ExpId}
    (hMarks : w'.marks = (w.withMark round id).marks)
    (e : ExpId) :
    w'.Marked round e ↔ e = id ∨ w.Marked round e := by
  have hHere : (w.withMark round id).Marked round e ↔ _ :=
    marked_withMark
  unfold Progress.Marked at hHere ⊢
  rw [hMarks, hHere]
  by_cases hSame : e = id
  · simp [hSame]
  · simp [hSame]

/- Go on to an owner, with what comes in between. -/
def climb
    (c : Setting)
    (beyond : Walk (List Match))
    (depth : Nat)
    (owner id : ExpId)
    (ms : List Match)
    (round : Nat) : Walk (List Match) := do
  let current ← between c beyond owner id ms
  splitFollow (fun ms r => followSetTo c beyond depth ms owner r)
    current ms round

/- A match was there before, by its number. -/
def isOld
    (before : List Match)
    (m : Match) : Bool :=
  before.any fun o => o.id == m.id

/- What is grown goes on in a new round, and then the others. -/
theorem run_splitFollow
    (follow : List Match → Nat → Walk (List Match))
    (current before : List Match)
    (round : Nat)
    (w : Progress) :
    (splitFollow follow current before round).run w =
      let grown := current.filter fun m => !isOld before m
      let same := current.filter (isOld before)
      let out :=
        if grown.isEmpty then ([], w)
        else (follow grown w.nextRound).run
          { w with nextRound := w.nextRound + 1 }
      if same.isEmpty then out
      else
        let rest := (follow same round).run out.2
        (out.1 ++ rest.1, rest.2) := by
  unfold splitFollow isOld
  dsimp only
  split
  · split
    · rfl
    · rfl
  · split
    · rfl
    · rfl

theorem filter_isOld
    {current before : List Match}
    (hOld : ∀ m ∈ current, m ∈ before) :
    current.filter (isOld before) = current ∧
      (current.filter fun m => !isOld before m) = [] := by
  have hAll : ∀ m ∈ current, isOld before m = true :=
    fun m hm => List.any_eq_true.mpr ⟨m, hOld m hm, by simp⟩
  constructor
  · exact List.filter_eq_self.mpr hAll
  · rw [List.filter_eq_nil_iff]
    intro m hm
    rw [hAll m hm]
    nofun

/- Matches that have not grown go on in the same round. -/
theorem run_splitFollow_old
    (follow : List Match → Nat → Walk (List Match))
    {current before : List Match}
    (hOld : ∀ m ∈ current, m ∈ before)
    (round : Nat)
    (w : Progress) :
    (splitFollow follow current before round).run w =
      if current.isEmpty then ([], w)
      else (follow current round).run w := by
  rcases filter_isOld hOld with ⟨hSame, hGrown⟩
  rw [run_splitFollow]
  dsimp only
  rw [hSame, hGrown]
  split
  · rfl
  · rfl

/- One step of a walk to followers. -/
theorem run_followSetTo_succ
    (c : Setting)
    (beyond : Walk (List Match))
    (depth : Nat)
    {ms : List Match}
    (hSome : ms ≠ [])
    (id : ExpId)
    (round : Nat)
    (w : Progress) :
    (followSetTo c beyond (depth + 1) ms id round).run w =
      if w.Marked round id then ([], w)
      else
        match c.grammar.owner? id with
        | none => (ms, w.withMark round id)
        | some (.production p) =>
            (across
              (fun ms call => followSetTo c beyond depth ms call
                round)
              ms (c.session.facts.callers.getD p [])).run
                (w.withMark round id)
        | some (.node owner) =>
            (climb c beyond depth owner id ms round).run
              (w.withMark round id) := by
  have hMark : (mark id round).run w =
      if w.Marked round id then (false, w)
      else (true, w.withMark round id) := by
    change (if (Assoc.get? id w.marks == some round) = true
      then (false, w) else (true, w.withMark round id)) = _
    simp only [beq_iff_eq]
    rfl
  rw [followSetTo, run_bind, hMark]
  by_cases hMarked : w.Marked round id
  · rw [if_pos hMarked, if_pos hMarked]
    rfl
  · rw [if_neg hMarked, if_neg hMarked]
    unfold Grammar.owner?
    dsimp only
    cases hOwner : (c.grammar.node id).owner with
    | none => rfl
    | some owner =>
        cases owner with
        | production p => rfl
        | node owner =>
            have hNone : ms.isEmpty = false := by
              rw [Bool.eq_false_iff, Ne, List.isEmpty_iff]
              exact hSome
            unfold climb between
            dsimp only
            cases hForm : c.grammar.form owner with
            | sequence units =>
                dsimp only
                rw [if_neg (by decide), run_bind, run_bind]
                split
                · next hGone =>
                    rw [List.isEmpty_iff] at hGone
                    rw [hGone]
                    rfl
                · rfl
            | oneOrMore body => rfl
            | zeroOrMore body => rfl
            | _ =>
                refine Eq.symm ((run_bind _ _ _).trans ?_)
                refine (run_splitFollow_old _ (fun _ h => h) round
                  _).trans ?_
                change (if ms.isEmpty = true then _ else _) = _
                rw [hNone]
                rfl

------------------------------------------------------------
-- Places on the way
------------------------------------------------------------

/- What is known where ways lead up. -/
structure Mapped
    (c : Setting) : Prop where
  flagged : c.session.Flagged c.grammar
  callers : c.session.KnowsCalls c.grammar
  sane : c.grammar.Sane
  arranged : c.grammar.Arranged
  attributed : c.grammar.Attributed
  unstopped : c.stopAtGuards = false

/- Where an expansion stands, and how ways lead up from there. -/
inductive Placed
    (c : Setting)
    (id : ExpId) : Option Owner → Prop where
  | body
      {p : ProdId}
      (hCalls : ∀ call, c.grammar.Passes id call ↔
        call ∈ c.session.facts.callers.getD p [])
      (hWhole : ∀ owner, ¬ c.grammar.ChildOf id owner) :
      Placed c id (some (.production p))
  | part
      {owner : ExpId}
      (hChild : c.grammar.ChildOf id owner)
      (hReachable : c.grammar.Reachable owner)
      (hPasses : ∀ above, c.grammar.Passes id above ↔
        above = owner ∧
          ∃ es ∈ c.grammar.between owner id,
            c.grammar.Vanishes es)
      (hOnly : ∀ owner', c.grammar.ChildOf id owner' →
        owner' = owner) :
      Placed c id (some (.node owner))

theorem Mapped.placed
    {c : Setting}
    (hMapped : Mapped c)
    {id : ExpId}
    (hReachable : c.grammar.Reachable id) :
    Placed c id (c.grammar.owner? id) := by
  have hOwned := hMapped.arranged.owned
  have hNames := hMapped.flagged.names
  rcases (hMapped.arranged.exists_holds hReachable).1 with
    ⟨o, hHolds⟩
  rw [hMapped.attributed id o hHolds]
  cases o with
  | production p =>
      rcases hHolds with ⟨q, hAt, hBody⟩
      have hMem := Array.mem_of_getElem? hAt
      have hWhole := hOwned.roots id
        (Grammar.mem_bodies hMem hBody)
      refine .body (fun call => ?_) hWhole
      rw [hMapped.callers]
      constructor
      · rintro (⟨hChild, -, -⟩ |
          ⟨hCaller, hCall, q', hMem', hName, hBody'⟩)
        · exact absurd hChild (hWhole _)
        · rcases Array.mem_iff_getElem?.mp hMem' with ⟨p', hAt'⟩
          cases hOwned.production_unique hAt hAt' hBody hBody'
          exact ⟨hCaller, _, _, _, hCall,
            (hNames _ p).mpr ⟨q', hAt', hName⟩⟩
      · rintro ⟨hCaller, name, result, args, hCall, hNamed⟩
        rcases (hNames name p).mp hNamed with ⟨q', hAt', hName⟩
        cases hAt.symm.trans hAt'
        exact .call hCaller hCall ⟨q, hMem, hName, hBody⟩
  | node owner =>
      have hOnly : ∀ owner', c.grammar.ChildOf id owner' →
          owner' = owner :=
        fun owner' hChild => hOwned.wholes hChild hHolds
      refine .part hHolds
        (hOwned.reachable_owner hReachable hHolds)
        (fun above => ?_) hOnly
      constructor
      · rintro (⟨hChild, hBetween, hGone⟩ |
          ⟨-, -, q, hMem, -, hBody⟩)
        · cases hOnly above hChild
          exact ⟨rfl, _, hBetween, hGone⟩
        · exact absurd hHolds (hOwned.roots id
            (Grammar.mem_bodies hMem hBody) owner)
      · rintro ⟨rfl, es, hes, hGone⟩
        exact .owner hHolds hes hGone

/-
  What comes of matches between an expansion and its owner.
  Those that have grown are longer, and those that have not
  have come by without tokens.
-/
structure Divides
    (c : Setting)
    (least : Nat)
    (owner id : ExpId)
    (ms : List Match)
    (w : Progress)
    (r : List Match × Progress) : Prop where
  grown : Fits c.limit (least + 1)
    (r.1.filter fun m => !isOld ms m) r.2
  same : Fits c.limit least (r.1.filter (isOld ms)) r.2
  gains : (r.1.filter fun m => !isOld ms m) ≠ [] →
    c.grammar.Gains id owner
  passes : r.1.filter (isOld ms) ≠ [] →
    c.grammar.Passes id owner
  marks : r.2.marks = w.marks
  next : w.nextId ≤ r.2.nextId

theorem Mapped.divides
    {c : Setting}
    (hMapped : Mapped c)
    (hLimit : 1 ≤ c.limit)
    {owner id : ExpId}
    (hChild : c.grammar.ChildOf id owner)
    (hReachable : c.grammar.Reachable owner)
    {least : Nat}
    {ms : List Match}
    {w : Progress}
    (hFits : Fits c.limit least ms w) :
    Divides c least owner id ms w
      ((between c (return []) owner id ms).run w) := by
  have hKeeps := spares_between hMapped.flagged.names owner id
    ms w
  have hAdvances := (takes_between hMapped.flagged hMapped.sane
    hMapped.unstopped hLimit hChild hReachable (return []) ms w
    (hFits.mono (Nat.zero_le _) le_rfl)).2
  generalize (between c (return []) owner id ms).run w = r
    at hKeeps hAdvances
  have hStill := hAdvances.fits hFits
  -- Numbers that were given out before are those of old matches.
  have hNew : ∀ m ∈ r.1, (!isOld ms m) = true →
      c.grammar.Fills owner id ∧ least + 1 ≤ m.tokens.length := by
    intro m hm hOther
    rcases hKeeps.kept m hm with
      hOld | ⟨hFills, -, m₀, hm₀, hLonger⟩
    · have hHere : isOld ms m = true :=
        List.any_eq_true.mpr ⟨m, hOld, by simp⟩
      rw [hHere] at hOther
      cases hOther
    · exact ⟨hFills,
        Nat.succ_le_of_lt ((hFits.long m₀ hm₀).trans_lt hLonger)⟩
  constructor
  · constructor
    · intro m hm
      rcases List.mem_filter.mp hm with ⟨hm, hOther⟩
      exact (hNew m hm hOther).2
    · exact fun m hm => hStill.short m (List.mem_of_mem_filter hm)
    · exact fun m hm => hStill.known m (List.mem_of_mem_filter hm)
  · constructor
    · exact fun m hm => hStill.long m (List.mem_of_mem_filter hm)
    · exact fun m hm => hStill.short m (List.mem_of_mem_filter hm)
    · exact fun m hm => hStill.known m (List.mem_of_mem_filter hm)
  · intro hSome
    rcases List.exists_mem_of_ne_nil _ hSome with ⟨m, hm⟩
    rcases List.mem_filter.mp hm with ⟨hm, hOther⟩
    exact ⟨hChild, (hNew m hm hOther).1⟩
  · intro hSome
    rcases List.exists_mem_of_ne_nil _ hSome with ⟨m, hm⟩
    rcases List.mem_filter.mp hm with ⟨hm, hOld⟩
    rcases List.any_eq_true.mp hOld with ⟨o, ho, hSame⟩
    rw [beq_iff_eq] at hSame
    rcases hAdvances.fresh m hm with hLater | ⟨-, es, hes, hGone⟩
    · rw [← hSame] at hLater
      exact absurd (hFits.known o ho) (Nat.not_le.mpr hLater)
    · exact .owner hChild hes hGone
  · exact hKeeps.marks
  · exact hKeeps.next

/- Where one token is enough, no match grows on the way up. -/
theorem Divides.grown_eq_nil
    {c : Setting}
    {least : Nat}
    {owner id : ExpId}
    {ms : List Match}
    {w : Progress}
    {r : List Match × Progress}
    (hDivides : Divides c least owner id ms w r)
    (hFull : c.limit ≤ least + 1) :
    (r.1.filter fun m => !isOld ms m) = [] := by
  by_contra hSome
  rcases List.exists_mem_of_ne_nil _ hSome with ⟨m, hm⟩
  exact absurd (hDivides.grown.short m hm)
    (Nat.not_lt.mpr (hFull.trans (hDivides.grown.long m hm)))

/- Matches that have grown go on first, in a round of their own. -/
def ahead
    (c : Setting)
    (beyond : Walk (List Match))
    (depth : Nat)
    (owner : ExpId)
    (grown : List Match)
    (w : Progress) : List Match × Progress :=
  if grown.isEmpty then ([], w)
  else (followSetTo c beyond depth grown owner w.nextRound).run
    { w with nextRound := w.nextRound + 1 }

/-
  A step up to an owner goes on with matches that have grown,
  and then with the others.
-/
theorem Mapped.run_climb
    {c : Setting}
    (hMapped : Mapped c)
    (hLimit : 1 ≤ c.limit)
    {owner id : ExpId}
    (hChild : c.grammar.ChildOf id owner)
    (hReachable : c.grammar.Reachable owner)
    {least : Nat}
    {ms : List Match}
    {w : Progress}
    (hFits : Fits c.limit least ms w)
    (beyond : Walk (List Match))
    (depth round : Nat) :
    (climb c beyond depth owner id ms round).run w =
      let r := (between c (return []) owner id ms).run w
      let out := ahead c beyond depth owner
        (r.1.filter fun m => !isOld ms m) r.2
      let same := r.1.filter (isOld ms)
      if same.isEmpty then out
      else
        let rest := (followSetTo c beyond depth same owner
          round).run out.2
        (out.1 ++ rest.1, rest.2) := by
  have hSame := (takes_between hMapped.flagged hMapped.sane
    hMapped.unstopped hLimit hChild hReachable beyond ms w
    (hFits.mono (Nat.zero_le _) le_rfl)).1
  rw [climb, run_bind, hSame, run_splitFollow]
  rfl

end Prefixes

end Descent
