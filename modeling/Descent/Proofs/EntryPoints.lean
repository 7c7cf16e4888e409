import Descent.Parser
import Descent.Proofs.FirstMatch
import Descent.Proofs.Requests

/-
  Entry points into speculation.

  While methods are written, every condition that is looked
  for ahead takes the next entry point.  If expansions form
  trees, no two conditions look for the same expansion, so the
  entry points are numbered without gaps and each expansion
  keeps the name that it was given.

  Main declarations:
    * `Enters`
    * `Decision.enters_build`
    * `Method.enters_bodyTo`
    * `Opened` and `opened_methods`
    * `Speculation.advances_entered`
-/

------------------------------------------------------------
-- Entry points that are taken
------------------------------------------------------------

namespace Descent

/- Tables without labels and error masks. -/
def ParserTables.unlabelled
    (t : ParserTables) : ParserTables :=
  { t with labelCount := 0, maskCount := 0, masks := #[] }

/- The tables after a condition has taken its entry point. -/
def openEntry
    (t : ParserTables)
    (c : Condition) : ParserTables :=
  ((Decision.takeEntry c).run t).2

/- Some conditions take entry points, and nothing else is new. -/
def Opens
    (t : ParserTables)
    (taken : List Condition)
    (t' : ParserTables) : Prop :=
  t'.unlabelled = taken.foldl openEntry t.unlabelled

theorem opens_nil
    {t t' : ParserTables}
    (hSame : t'.unlabelled = t.unlabelled) :
    Opens t [] t' :=
  hSame

theorem Opens.trans
    {t t' t'' : ParserTables}
    {taken taken' : List Condition}
    (hFirst : Opens t taken t')
    (hSecond : Opens t' taken' t'') :
    Opens t (taken ++ taken') t'' := by
  unfold Opens at *
  rw [hSecond, hFirst, List.foldl_append]

/- A computation takes entry points for some of the targets. -/
def Enters
    {α : Type}
    (targets : List ExpId)
    (m : StateM ParserTables α) : Prop :=
  ∀ t, ∃ taken : List Condition,
    (taken.map (·.target)).Sublist targets ∧
      Opens t taken (m.run t).2

section Enters

variable {α β : Type}

theorem Enters.mono
    {targets targets' : List ExpId}
    {m : StateM ParserTables α}
    (hEnters : Enters targets m)
    (hSublist : targets.Sublist targets') :
    Enters targets' m := by
  intro t
  rcases hEnters t with ⟨taken, hTaken, hOpens⟩
  exact ⟨taken, hTaken.trans hSublist, hOpens⟩

theorem enters_of_same
    {m : StateM ParserTables α}
    (hSame : ∀ t, (m.run t).2.unlabelled = t.unlabelled) :
    Enters [] m :=
  fun t => ⟨[], .slnil, opens_nil (hSame t)⟩

theorem enters_pure
    (a : α) :
    Enters [] (pure a : StateM ParserTables α) :=
  enters_of_same fun _ => rfl

theorem Enters.bind
    {targets targets' : List ExpId}
    {m : StateM ParserTables α}
    {f : α → StateM ParserTables β}
    (hFirst : Enters targets m)
    (hSecond : ∀ a, Enters targets' (f a)) :
    Enters (targets ++ targets') (m >>= f) := by
  intro t
  rcases hFirst t with ⟨taken, hTaken, hOpens⟩
  rcases hSecond (m.run t).1 (m.run t).2 with
    ⟨taken', hTaken', hOpens'⟩
  refine ⟨taken ++ taken', ?_, hOpens.trans hOpens'⟩
  rw [List.map_append]
  exact hTaken.append hTaken'

theorem Enters.map
    {targets : List ExpId}
    {m : StateM ParserTables α}
    {f : α → StateM ParserTables β}
    (hFirst : Enters targets m)
    (hSecond : ∀ a, Enters [] (f a)) :
    Enters targets (m >>= f) := by
  have hBoth := hFirst.bind hSecond
  rwa [List.append_nil] at hBoth

theorem enters_mapM
    {f : ExpId → StateM ParserTables α}
    {targets : ExpId → List ExpId}
    (hEach : ∀ u, Enters (targets u) (f u))
    (units : List ExpId) :
    Enters (units.flatMap targets) (units.mapM f) := by
  induction units with
  | nil =>
      rw [List.mapM_nil]
      exact enters_pure []
  | cons unit units ih =>
      rw [List.mapM_cons, List.flatMap_cons]
      exact (hEach unit).bind fun _ =>
        ih.map fun _ => enters_pure _

end Enters

------------------------------------------------------------
-- Decisions and methods
------------------------------------------------------------

namespace Decision

variable {g : Grammar} {s : Session}

theorem enters_takeSlot
    (o : Options)
    (tokenCount : Nat)
    (kinds : List Kind)
    (recordAlways : Bool) :
    Enters [] (takeSlot o tokenCount kinds recordAlways) := by
  apply enters_of_same
  intro t
  unfold takeSlot
  dsimp only [modifyGet, MonadStateOf.modifyGet,
    StateT.modifyGet, StateT.run, pure]
  split
  · rfl
  · rfl

theorem enters_close
    {targets : List ExpId}
    (pending : Pending)
    (recordAlways : Bool)
    {rest : StateM ParserTables Decision}
    (hRest : Enters targets rest) :
    Enters targets (close s pending recordAlways rest) := by
  cases pending with
  | nothing => exact hRest
  | arms done claimed =>
      exact (enters_takeSlot s.options s.tokenCount claimed
        recordAlways).bind fun _ =>
          hRest.map fun _ => enters_pure _

theorem enters_takeEntry
    (c : Condition) :
    Enters [c.target] (takeEntry c) :=
  fun _ => ⟨[c], List.Sublist.refl _, rfl⟩

theorem enters_buildFrom
    (lastResort : Fragment)
    (pending : Pending)
    (alternatives : List (Condition × Fragment)) :
    Enters (alternatives.map (·.1.target))
      (buildFrom g s lastResort pending alternatives) := by
  induction alternatives generalizing pending with
  | nil =>
      unfold buildFrom
      exact enters_close _ _ (enters_pure _)
  | cons alternative rest ih =>
      rcases alternative with ⟨c, code⟩
      unfold buildFrom
      rw [List.map_cons]
      split
      · apply enters_close
        exact (enters_pure _).mono (List.nil_sublist _)
      · apply enters_close
        exact Enters.mono ((ih .nothing).map fun _ =>
          enters_pure _) (List.sublist_cons_self _ _)
      · apply enters_close
        exact (enters_takeEntry c).bind fun _ =>
          (ih .nothing).map fun _ => enters_pure _
      · exact (ih _).mono (List.sublist_cons_self _ _)

/- A decision takes entry points for some alternatives. -/
theorem enters_build
    (conditions : List Condition)
    (codes : List Fragment)
    (lastResort : Fragment) :
    Enters (conditions.map (·.target))
      (build g s (conditions.zip codes) lastResort) := by
  apply (enters_buildFrom lastResort .nothing _).mono
  induction conditions generalizing codes with
  | nil => exact List.Sublist.refl _
  | cons c conditions ih =>
      cases codes with
      | nil => exact List.nil_sublist _
      | cons code codes => exact (ih codes).cons_cons c.target

end Decision

theorem target_conditionOfSequence
    (g : Grammar)
    (s : Session)
    (seq : ExpId) :
    (conditionOfSequence g s seq).target = g.targetOf seq := by
  unfold conditionOfSequence Grammar.targetOf
  cases g.headLookahead? seq with
  | none => rfl
  | some la => rfl

namespace Method

variable {g : Grammar} {s : Session}

theorem enters_takeLabel :
    Enters [] takeLabel :=
  enters_of_same fun _ => rfl

/- Code takes entry points for the decisions in it. -/
theorem enters_bodyTo
    (depth : Nat)
    (id : ExpId) :
    Enters (g.targetsTo depth id) (bodyTo g s depth id) := by
  induction depth generalizing id with
  | zero => exact enters_pure _
  | succ depth ih =>
      -- A repetition decides on its body.
      have hOne : ∀ (body : ExpId) (code last : Fragment),
          Enters [g.targetOf body] (Decision.build g s
            [(conditionOfSequence g s body, code)] last) := by
        intro body code last
        have hBuild := Decision.enters_build (g := g) (s := s)
          [conditionOfSequence g s body] [code] last
        rw [List.map_singleton, target_conditionOfSequence]
          at hBuild
        exact hBuild
      unfold bodyTo Grammar.targetsTo
      cases g.form id with
      | choice alternatives =>
          apply (enters_mapM ih alternatives).bind
          intro codes
          have hBuild := Decision.enters_build (g := g) (s := s)
            (alternatives.map (conditionOfSequence g s)) codes
            (noAlternative s.options)
          rw [List.map_map] at hBuild
          have hTargets : alternatives.map
              ((·.target) ∘ conditionOfSequence g s) =
              alternatives.map g.targetOf :=
            List.map_congr_left fun alt _ =>
              target_conditionOfSequence g s alt
          rw [hTargets] at hBuild
          exact hBuild.map fun _ => enters_pure _
      | sequence units =>
          exact (enters_mapM ih (units.drop 1)).map
            fun _ => enters_pure _
      | oneOrMore body =>
          exact enters_takeLabel.bind fun _ =>
            (ih body).bind fun _ =>
              (hOne body _ _).map fun _ => enters_pure _
      | zeroOrMore body =>
          exact enters_takeLabel.bind fun _ =>
            (hOne body _ _).bind fun _ =>
              (ih body).map fun _ => enters_pure _
      | zeroOrOne body =>
          exact (ih body).bind fun _ =>
            (hOne body _ _).map fun _ => enters_pure _
      | tryBlock body catches cleanup =>
          exact (ih body).map fun _ => enters_pure _
      | _ => exact enters_pure _

end Method

------------------------------------------------------------
-- All methods
------------------------------------------------------------

namespace Parser

/- The methods of all productions, before any speculation. -/
def methods
    (g : Grammar)
    (s : Session)
    (out : Output) : Output × Session :=
  g.productions.toList.foldl (writeProduction g)
    (out, { s with parser := {} })

/- The session after the method of a production is written. -/
def afterMethod
    (g : Grammar)
    (s : Session)
    (p : Production) : Session :=
  match p.body with
  | .rules id _ =>
      { s with parser := ((Method.body g s id).run s.parser).2 }
  | .code .cpp _ => s
  | .code .java _ =>
      if s.options.isCpp then
        s.error p.place
          "Cannot use JAVACODE productions with C++ output (yet)."
      else
        s

theorem session_methods
    (g : Grammar)
    (s : Session)
    (out : Output) :
    (methods g s out).2 =
      g.productions.toList.foldl (afterMethod g)
        { s with parser := {} } := by
  have hStep : ∀ out s p,
      (writeProduction g (out, s) p).2 = afterMethod g s p := by
    intro out s p
    unfold writeProduction afterMethod
    cases p.body with
    | rules id declarations => rfl
    | code language text =>
        cases language with
        | cpp => rfl
        | java =>
            dsimp only
            split
            · rfl
            · rfl
  unfold methods
  generalize ({ s with parser := {} } : Session) = s
  induction g.productions.toList generalizing out s with
  | nil => rfl
  | cons p productions ih =>
      rw [List.foldl_cons, List.foldl_cons, ← hStep out s p]
      exact ih _ _

/-
  Writing methods takes entry points for the decisions in the
  bodies, and may record errors.
-/
theorem opens_foldl_afterMethod
    (g : Grammar)
    (productions : List Production)
    (s : Session) :
    ∃ taken diagnostics tables,
      productions.foldl (afterMethod g) s = { s with
        diagnostics := diagnostics, parser := tables } ∧
      (taken.map Condition.target).Sublist
        ((productions.filterMap
          Production.expansion?).flatMap
            (g.targetsTo (g.expansions.size + 1))) ∧
      Opens s.parser taken tables := by
  induction productions generalizing s with
  | nil =>
      exact ⟨[], s.diagnostics, s.parser, rfl, .slnil,
        opens_nil rfl⟩
  | cons p productions ih =>
      have hStep : ∃ taken diagnostics tables,
          afterMethod g s p = { s with
            diagnostics := diagnostics, parser := tables } ∧
          (taken.map Condition.target).Sublist
            (p.expansion?.toList.flatMap
              (g.targetsTo (g.expansions.size + 1))) ∧
          Opens s.parser taken tables := by
        unfold afterMethod Production.expansion?
        split
        · next id declarations hBody =>
            rcases Method.enters_bodyTo (g := g) (s := s)
              (g.expansions.size + 1) id s.parser with
              ⟨taken, hTaken, hOpens⟩
            refine ⟨taken, s.diagnostics, _, rfl, ?_, hOpens⟩
            simpa [hBody] using hTaken
        · exact ⟨[], s.diagnostics, s.parser, rfl,
            List.nil_sublist _, opens_nil rfl⟩
        · split
          · exact ⟨[], _, s.parser, rfl, List.nil_sublist _,
              opens_nil rfl⟩
          · exact ⟨[], s.diagnostics, s.parser, rfl,
              List.nil_sublist _, opens_nil rfl⟩
      rcases hStep with
        ⟨taken, diagnostics, tables, hStep, hTaken, hOpens⟩
      rcases ih { s with
        diagnostics := diagnostics, parser := tables } with
        ⟨taken', diagnostics', tables', hRest, hTaken', hOpens'⟩
      refine ⟨taken ++ taken', diagnostics', tables', ?_, ?_,
        hOpens.trans hOpens'⟩
      · rw [List.foldl_cons, hStep, hRest]
      · have hBodies : (p :: productions).filterMap
            Production.expansion? =
            p.expansion?.toList ++
              productions.filterMap Production.expansion? := by
          cases hBody : p.expansion? with
          | none => simp [hBody]
          | some body => simp [hBody]
        rw [List.map_append, hBodies, List.flatMap_append]
        exact hTaken.append hTaken'

end Parser

------------------------------------------------------------
-- Numbers of entry points
------------------------------------------------------------

/- The request that an entry point makes. -/
def Condition.request
    (c : Condition) : ScanRequest :=
  ⟨c.target, c.amount⟩

/-
  Tables in which some conditions have taken entry points and
  nothing has been requested.
-/
structure Opened
    (done : List Condition)
    (t : ParserTables) : Prop where
  entryCount : t.entryCount = done.length
  entries : t.entries.toList = done.map Condition.request
  ascending : Assoc.Ascending t.routineNames
  names : ∀ e name, Assoc.get? e t.routineNames = some name ↔
    ∃ i c, done[i]? = some c ∧ c.target = e ∧
      name = .entry (i + 1)
  requests : t.requests = #[]
  routines : t.routines = []
  minSizes : t.minSizes = []
  measuring : t.measuring = []

theorem opened_nil :
    Opened [] {} where
  entryCount := rfl
  entries := rfl
  ascending := Assoc.ascending_nil
  names e name := by
    constructor
    · intro hName
      cases hName
    · rintro ⟨i, c, hAt, -⟩
      cases hAt
  requests := rfl
  routines := rfl
  minSizes := rfl
  measuring := rfl

theorem Opened.step
    {done : List Condition}
    {t : ParserTables}
    (hOpened : Opened done t)
    {c : Condition}
    (hFresh : c.target ∉ done.map (·.target)) :
    Opened (done ++ [c]) (openEntry t c) where
  entryCount := by
    rw [List.length_append, ← hOpened.entryCount]
    rfl
  entries := by
    rw [List.map_append, ← hOpened.entries]
    exact Array.toList_push
  ascending := hOpened.ascending.alterSorted c.target _
  names e name := by
    have hGet : Assoc.get? e (openEntry t c).routineNames = _ :=
      Assoc.get?_insertSorted hOpened.ascending c.target e
        (.entry (t.entryCount + 1))
    rw [hGet, hOpened.entryCount]
    split
    · next hSame =>
        subst hSame
        constructor
        · intro hName
          cases hName
          exact ⟨done.length, c, by simp, rfl, rfl⟩
        · rintro ⟨i, c', hAt, hTarget, rfl⟩
          rw [List.getElem?_append] at hAt
          split at hAt
          · exact absurd (List.mem_map.mpr
              ⟨c', List.mem_of_getElem? hAt, hTarget⟩) hFresh
          · next hLater =>
              have hZero : i - done.length = 0 := by
                have := (List.getElem?_eq_some_iff.mp hAt).1
                simpa using this
              have hLast : i = done.length := by omega
              rw [hLast]
    · next hOther =>
        rw [hOpened.names]
        constructor
        · rintro ⟨i, c', hAt, hTarget, hName⟩
          refine ⟨i, c', ?_, hTarget, hName⟩
          rw [List.getElem?_append_left
            (List.getElem?_eq_some_iff.mp hAt).1]
          exact hAt
        · rintro ⟨i, c', hAt, hTarget, hName⟩
          rw [List.getElem?_append] at hAt
          split at hAt
          · exact ⟨i, c', hAt, hTarget, hName⟩
          · have hMem := List.mem_of_getElem? hAt
            rw [List.mem_singleton] at hMem
            exact absurd (hMem ▸ hTarget).symm hOther
  requests := hOpened.requests
  routines := hOpened.routines
  minSizes := hOpened.minSizes
  measuring := hOpened.measuring

theorem Opened.foldl
    {done : List Condition}
    {t : ParserTables}
    (hOpened : Opened done t)
    {taken : List Condition}
    (hNodup : ((done ++ taken).map (·.target)).Nodup) :
    Opened (done ++ taken) (taken.foldl openEntry t) := by
  induction taken generalizing done t with
  | nil =>
      rw [List.append_nil]
      exact hOpened
  | cons c taken ih =>
      have hFresh : c.target ∉ done.map (·.target) := by
        rw [List.map_append, List.map_cons] at hNodup
        intro hMem
        exact (List.nodup_append.mp hNodup).2.2 c.target hMem
          c.target List.mem_cons_self rfl
      have hStep := hOpened.step hFresh
      rw [List.append_cons] at hNodup ⊢
      exact ih hStep hNodup

/- Labels and error masks are no matter. -/
theorem Opened.congr
    {done : List Condition}
    {t t' : ParserTables}
    (hOpened : Opened done t')
    (hSame : t.unlabelled = t') :
    Opened done t := by
  subst hSame
  exact ⟨hOpened.entryCount, hOpened.entries, hOpened.ascending,
    hOpened.names, hOpened.requests, hOpened.routines,
    hOpened.minSizes, hOpened.measuring⟩

/- The entry points once all methods have been written. -/
theorem opened_methods
    {g : Grammar}
    (hArranged : g.Arranged)
    (s : Session)
    (out : Output) :
    ∃ taken diagnostics tables,
      (Parser.methods g s out).2 = { s with
        diagnostics := diagnostics, parser := tables } ∧
      (taken.map Condition.target).Nodup ∧
      (∀ c ∈ taken, c.target < g.expansions.size) ∧
      Opened taken tables := by
  rcases Parser.opens_foldl_afterMethod g
    g.productions.toList { s with parser := {} } with
    ⟨taken, diagnostics, tables, hFold, hTaken, hOpens⟩
  have hNodup : (taken.map Condition.target).Nodup :=
    (Grammar.nodup_targets hArranged.owned hArranged.nested
      _).sublist hTaken
  refine ⟨taken, diagnostics, tables, ?_, hNodup, ?_, ?_⟩
  · rw [Parser.session_methods, hFold]
  · intro c hMem
    have hTarget := hTaken.subset (List.mem_map_of_mem hMem)
    rcases List.mem_flatMap.mp hTarget with ⟨body, hBody, hIn⟩
    have hWithin :=
      Grammar.below_of_mem_targetsTo hArranged.owned hIn
    rcases hWithin.cases_head with hSame | ⟨whole, hChild, -⟩
    · rw [hSame]
      exact hArranged.inside body hBody
    · exact hArranged.nested.inside _ whole hChild
  · exact (opened_nil.foldl hNodup).congr hOpens

------------------------------------------------------------
-- Requests of entry points
------------------------------------------------------------

theorem Opened.named
    {done : List Condition}
    {t : ParserTables}
    (hOpened : Opened done t)
    (labels : Nat) :
    Speculation.Named t.routineNames labels := by
  refine ⟨hOpened.ascending, ?_, ?_⟩
  · intro e e' name name' n hLeft hRight hFirst hSecond
    rcases (hOpened.names e name).mp hLeft with
      ⟨i, c, hAt, hTarget, rfl⟩
    rcases (hOpened.names e' name').mp hRight with
      ⟨j, c', hAt', hTarget', rfl⟩
    cases hFirst
    cases hSecond
    rw [hAt] at hAt'
    cases hAt'
    exact hTarget.symm.trans hTarget'
  · intro e name n hName hSerial
    rcases (hOpened.names e name).mp hName with
      ⟨i, c, -, -, rfl⟩
    cases hSerial

namespace Speculation

variable {g : Grammar}

/- The tables once all entry points have made requests. -/
def entered
    (t : ParserTables) : ParserTables :=
  t.entries.toList.foldl (fun t r => push r t) t

theorem foldl_push
    (requests : List ScanRequest)
    (t : ParserTables) :
    requests.foldl (fun t r => push r t) t =
      { t with
        requests := t.requests ++ requests.toArray,
        routines := requests.foldl
          (fun known r => Assoc.insert r.exp r known)
          t.routines } := by
  induction requests generalizing t with
  | nil =>
      rw [Array.append_empty]
      rfl
  | cons r requests ih =>
      rw [List.foldl_cons, ih]
      simp [push]

/- Entry points for different expansions make requests. -/
theorem advances_foldl_push
    {most : Nat}
    {t : ParserTables}
    (hNamed : Named t.routineNames t.labelCount)
    (hQueued : Queued g most t)
    {requests : List ScanRequest}
    (hNodup : (requests.map (·.exp)).Nodup)
    (hFresh : ∀ r ∈ requests, level t r.exp = 0)
    (hEach : ∀ r ∈ requests,
      (∃ name, nameOf? t r.exp = some name) ∧
        r.exp < g.expansions.size ∧ r.count ≤ most) :
    Advances g most t
      (requests.foldl (fun t r => push r t) t) := by
  induction requests generalizing t with
  | nil => exact .refl hNamed hQueued
  | cons r requests ih =>
      rcases hEach r List.mem_cons_self with
        ⟨hName, hInside, hCount⟩
      have hZero := hFresh r List.mem_cons_self
      have hFirst := advances_push hNamed hQueued hName hInside
        hCount (hZero.trans_le (Nat.zero_le _))
      rw [List.map_cons, List.nodup_cons] at hNodup
      have hFresh' : ∀ r' ∈ requests,
          level (push r t) r'.exp = 0 := by
        intro r' hMem
        rw [level_push, if_neg]
        · exact hFresh r' (List.mem_cons_of_mem r hMem)
        · intro hSame
          exact hNodup.1 (hSame ▸ List.mem_map_of_mem hMem)
      exact hFirst.trans (ih hFirst.named hFirst.queued hNodup.2
        hFresh' fun r' hMem =>
          hEach r' (List.mem_cons_of_mem r hMem))

/- The requests of the entry points are in order. -/
theorem advances_entered
    {done : List Condition}
    {t : ParserTables}
    (hOpened : Opened done t)
    (hNodup : (done.map Condition.target).Nodup)
    (hInside : ∀ c ∈ done, c.target < g.expansions.size) :
    Advances g (largest (entered t)) t (entered t) ∧
      (entered t).requests.toList = t.entries.toList ∧
      ∀ s, Remembers g s (entered t) := by
  have hFields := foldl_push t.entries.toList t
  have hRequests : (entered t).requests.toList =
      t.entries.toList := by
    unfold entered
    rw [hFields, hOpened.requests]
    simp
  have hRemembers : ∀ s, Remembers g s (entered t) := by
    intro s
    unfold entered
    rw [hFields]
    refine ⟨?_, hOpened.measuring⟩
    rw [hOpened.minSizes]
    exact List.forall_mem_nil _
  refine ⟨?_, hRequests, hRemembers⟩
  have hQueued : Queued g (largest (entered t)) t := by
    constructor
    · rw [hOpened.routines]
      exact List.nodup_nil
    · intro e r hMem
      rw [hOpened.routines] at hMem
      cases hMem
    · rw [hOpened.requests]
      exact fun r hMem => absurd hMem (Array.not_mem_empty r)
    · rw [hOpened.requests]
      exact fun r hMem => absurd hMem (Array.not_mem_empty r)
    · rw [hOpened.requests]
      exact fun r hMem => absurd hMem (Array.not_mem_empty r)
  apply advances_foldl_push (hOpened.named t.labelCount) hQueued
  · rw [hOpened.entries, List.map_map]
    exact hNodup
  · intro r _
    unfold level
    rw [hOpened.routines]
    rfl
  · intro r hMem
    have hCount : r.count ≤ largest (entered t) := by
      apply count_le_largest
      rw [← Array.mem_toList_iff, hRequests]
      exact hMem
    rw [hOpened.entries] at hMem
    rcases List.mem_map.mp hMem with ⟨c, hc, rfl⟩
    rcases List.mem_iff_getElem?.mp hc with ⟨i, hAt⟩
    exact ⟨⟨_, (hOpened.names _ _).mpr ⟨i, c, hAt, rfl, rfl⟩⟩,
      hInside c hc, hCount⟩

end Speculation

end Descent
