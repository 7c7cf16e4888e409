import Descent.Proofs.EmptyExpansions
import Descent.Proofs.SearchMarks

/-
  The search for cycles among productions.

  A walk goes along the links between productions and marks
  them.  Where it comes back to a production that it has not
  left yet, it hands the cycle back, up to the production that
  reports it.

  Main declarations:
    * `LeftRecursion.Searching` and `LeftRecursion.Unwinding`
    * `LeftRecursion.outcome_walk`
    * `LeftRecursion.searching_check`
    * `LeftRecursion.checkTo_eq`
    * `LeftRecursion.wellFounded_of_clean`
-/

------------------------------------------------------------
-- Links
------------------------------------------------------------

namespace Descent

namespace LeftRecursion

theorem mem_pushNew
    (known : List ProdId)
    (p q : ProdId) :
    q ∈ pushNew known p ↔ q ∈ known ∨ q = p := by
  unfold pushNew
  split
  · next hKnown =>
      constructor
      · exact .inl
      · rintro (hOld | rfl)
        · exact hOld
        · exact List.contains_iff_mem.mp hKnown
  · rw [List.mem_append, List.mem_singleton]

theorem mem_foldl_pushNew
    (ps known : List ProdId)
    (q : ProdId) :
    q ∈ ps.foldl pushNew known ↔ q ∈ known ∨ q ∈ ps := by
  induction ps generalizing known with
  | nil => simp
  | cons p ps ih =>
      rw [List.foldl_cons, ih, mem_pushNew, List.mem_cons,
        or_assoc]

/- What a production is linked to. -/
def linksOf
    (s : Session)
    (p : ProdId) : List ProdId :=
  s.facts.leftExpansions.getD p []

/- A production is linked to another one. -/
def Links
    (s : Session)
    (p q : ProdId) : Prop :=
  q ∈ linksOf s p

/- One production comes right below another one. -/
def LinkedTo
    (s : Session)
    (q p : ProdId) : Prop :=
  q ∈ linksOf s p

/- Links that are added for some productions. -/
theorem mem_foldl_links
    (g : Grammar)
    (s : Session)
    (entries : List (Production × ProdId))
    (left : Array (List ProdId))
    (q i : ProdId) :
    q ∈ (entries.foldl
      (fun (left : Array (List ProdId)) (p, i) =>
        match p.expansion? with
        | some body => left.modify i (leftMost g s body)
        | none => left) left).getD i [] ↔
      q ∈ left.getD i [] ∨ i < left.size ∧
        ∃ p body, (p, i) ∈ entries ∧
          p.expansion? = some body ∧
          q ∈ leftMostTo g s (g.expansions.size + 1) body := by
  induction entries generalizing left with
  | nil => simp
  | cons entry entries ih =>
      rcases entry with ⟨p, j⟩
      rw [List.foldl_cons, ih]
      dsimp only
      cases hBody : p.expansion? with
      | none =>
          dsimp only
          apply or_congr_right
          apply and_congr_right
          intro _
          constructor
          · rintro ⟨p', body, hMem, hRest⟩
            exact ⟨p', body, List.mem_cons_of_mem _ hMem,
              hRest⟩
          · rintro ⟨p', body, hMem, hBody', hLeft⟩
            rcases List.mem_cons.mp hMem with hHere | hMem
            · cases hHere
              rw [hBody] at hBody'
              cases hBody'
            · exact ⟨p', body, hMem, hBody', hLeft⟩
      | some body =>
          dsimp only
          rw [getD_modify_at, Array.size_modify]
          constructor
          · rintro (hHere | ⟨hInside, p', body', hMem, hRest⟩)
            · split at hHere
              · next hAt =>
                  rcases (mem_foldl_pushNew _ _ q).mp hHere
                    with hOld | hNew
                  · exact .inl (hAt.1 ▸ hOld)
                  · refine .inr ⟨hAt.1 ▸ hAt.2, p, body, ?_,
                      hBody, hNew⟩
                    rw [hAt.1]
                    exact List.mem_cons_self
              · exact .inl hHere
            · exact .inr ⟨hInside, p', body',
                List.mem_cons_of_mem _ hMem, hRest⟩
          · rintro (hOld | ⟨hInside, p', body', hMem, hBody',
              hLeft⟩)
            · left
              split
              · next hAt =>
                  apply (mem_foldl_pushNew _ _ q).mpr
                  exact .inl (hAt.1 ▸ hOld)
              · exact hOld
            · rcases List.mem_cons.mp hMem with hHere | hMem
              · cases hHere
                rw [hBody] at hBody'
                cases hBody'
                left
                rw [if_pos ⟨rfl, hInside⟩]
                exact (mem_foldl_pushNew _ _ q).mpr
                  (.inr hLeft)
              · exact .inr ⟨hInside, p', body', hMem, hBody',
                  hLeft⟩

/- Productions are linked to what they can begin with. -/
theorem linkedTo_link
    {g : Grammar}
    {s : Session}
    (hLinks : s.facts.leftExpansions =
      Array.replicate g.productions.size [])
    (q i : ProdId) :
    LinkedTo (link g s) q i ↔
      ∃ p body, g.productions[i]? = some p ∧
        p.expansion? = some body ∧
        q ∈ leftMostTo g s (g.expansions.size + 1) body := by
  have hNone : s.facts.leftExpansions.getD i [] = [] := by
    rw [hLinks, Array.getD_eq_getD_getElem?,
      Array.getElem?_replicate]
    split
    · rfl
    · rfl
  refine (mem_foldl_links g s g.productions.toList.zipIdx
    s.facts.leftExpansions q i).trans ?_
  rw [hNone, hLinks, Array.size_replicate]
  simp only [List.not_mem_nil, false_or,
    List.mem_zipIdx_iff_getElem?, Array.getElem?_toList]
  constructor
  · exact And.right
  · rintro ⟨p, body, hAt, hRest⟩
    exact ⟨(Array.getElem?_eq_some_iff.mp hAt).1, p, body, hAt,
      hRest⟩

------------------------------------------------------------
-- Statuses
------------------------------------------------------------

theorem statusOf_setStatus
    (s : Session)
    (p : ProdId)
    (status : WalkStatus)
    (q : ProdId) :
    statusOf (setStatus s p status) q =
      if q = p ∧ p < s.facts.walkStatus.size then status
      else statusOf s q := by
  unfold statusOf setStatus
  dsimp only
  rw [Array.getD_eq_getD_getElem?, Array.getD_eq_getD_getElem?,
    Array.getElem?_setIfInBounds]
  by_cases hSame : p = q
  · subst hSame
    rw [if_pos rfl]
    by_cases hInside : p < s.facts.walkStatus.size
    · rw [if_pos hInside, if_pos ⟨rfl, hInside⟩]
      rfl
    · rw [if_neg hInside, if_neg fun h => hInside h.2]
      rw [Array.getElem?_eq_none (Nat.le_of_not_lt hInside)]
  · rw [if_neg hSame, if_neg fun h => hSame h.1.symm]

theorem lt_size_of_statusOf
    {s : Session}
    {p : ProdId}
    (hStatus : statusOf s p ≠ .done) :
    p < s.facts.walkStatus.size := by
  by_contra hOutside
  apply hStatus
  unfold statusOf
  rw [Array.getD_eq_getD_getElem?,
    Array.getElem?_eq_none (Nat.le_of_not_lt hOutside)]
  rfl

/- The production at which a status is noted. -/
theorem statusOf_setStatus_self
    {s : Session}
    {p : ProdId}
    (hStatus : statusOf s p ≠ .done)
    (status : WalkStatus) :
    statusOf (setStatus s p status) p = status := by
  rw [statusOf_setStatus,
    if_pos ⟨rfl, lt_size_of_statusOf hStatus⟩]

theorem statusOf_setStatus_of_ne
    {p q : ProdId}
    (hOther : q ≠ p)
    (s : Session)
    (status : WalkStatus) :
    statusOf (setStatus s p status) q = statusOf s q := by
  rw [statusOf_setStatus, if_neg fun h => hOther h.1]

/- A status is noted where it is not the last one. -/
theorem statusOf_setStatus_eq
    {s : Session}
    {p : ProdId}
    (hStatus : statusOf s p ≠ .done)
    (status : WalkStatus) :
    statusOf (setStatus s p status) =
      Function.update (statusOf s) p status := by
  funext q
  by_cases hSame : q = p
  · rw [hSame, Function.update_self,
      statusOf_setStatus_self hStatus]
  · rw [Function.update_of_ne hSame,
      statusOf_setStatus_of_ne hSame]

/- Productions that no walk had reached may be done now. -/
def Explores
    (s s' : Session)
    (q : ProdId) : Prop :=
  statusOf s' q = statusOf s q ∨
    statusOf s q = .unvisited ∧ statusOf s' q = .done

theorem Explores.trans
    {s s' s'' : Session}
    {q : ProdId}
    (hFirst : Explores s s' q)
    (hSecond : Explores s' s'' q) :
    Explores s s'' q :=
  Statuses.Explores.trans hFirst hSecond

theorem Explores.of_ne
    {s s' : Session}
    {q : ProdId}
    (hExplores : Explores s s' q)
    (hVisited : statusOf s q ≠ .unvisited) :
    statusOf s' q = statusOf s q :=
  Statuses.Explores.of_ne hExplores hVisited

/- No production has come onto the stack. -/
theorem Explores.onStack
    {s s' : Session}
    {q : ProdId}
    (hExplores : Explores s s' q)
    (hOnStack : statusOf s' q = .onStack) :
    statusOf s q = .onStack :=
  Statuses.Explores.onStack hExplores hOnStack

/- The productions that no walk has reached. -/
def unvisited
    (s : Session) : Finset ProdId :=
  (Finset.range s.facts.walkStatus.size).filter
    fun q => statusOf s q = .unvisited

theorem mem_unvisited
    {s : Session}
    {q : ProdId} :
    q ∈ unvisited s ↔ statusOf s q = .unvisited := by
  unfold unvisited
  rw [Finset.mem_filter, Finset.mem_range]
  constructor
  · exact And.right
  · intro hOpen
    refine ⟨lt_size_of_statusOf ?_, hOpen⟩
    rw [hOpen]
    simp

theorem unvisited_subset
    {s s' : Session}
    (hExplores : ∀ q, Explores s s' q) :
    unvisited s' ⊆ unvisited s := by
  intro q hOpen
  rw [mem_unvisited] at hOpen ⊢
  exact Statuses.Explores.unvisited (hExplores q) hOpen

/- There is one less once a walk has come to a production. -/
theorem card_unvisited_onStack
    {s : Session}
    {p : ProdId}
    (hOpen : statusOf s p = .unvisited) :
    (unvisited (setStatus s p .onStack)).card <
      (unvisited s).card := by
  apply Finset.card_lt_card
  apply Finset.ssubset_iff_of_subset ?_ |>.mpr
  · refine ⟨p, mem_unvisited.mpr hOpen, ?_⟩
    rw [mem_unvisited, statusOf_setStatus_self (by simp [hOpen])]
    simp
  · intro q hq
    rw [mem_unvisited, statusOf_setStatus] at hq
    split at hq
    · cases hq
    · exact mem_unvisited.mpr hq

------------------------------------------------------------
-- Reports of cycles
------------------------------------------------------------

/- The names of productions along a way. -/
def spelling
    (g : Grammar) : List ProdId → String
  | [] => ""
  | [p] => s!"{(g.production p).name}..."
  | p :: q :: rest =>
      s!"{(g.production p).name}... --> {spelling g (q :: rest)}"

theorem spelling_pair
    (g : Grammar)
    (p q : ProdId) :
    s!"{(g.production p).name}... --> {(g.production q).name}..." =
      spelling g [p, q] :=
  String.append_assoc

theorem spelling_cons
    (g : Grammar)
    (p q : ProdId)
    (rest : List ProdId) :
    s!"{(g.production p).name}... --> {spelling g (q :: rest)}" =
      spelling g (p :: q :: rest) :=
  rfl

/- The report of a cycle at its head. -/
def Cycle.report
    (g : Grammar)
    (c : Cycle) : Diagnostic :=
  ⟨.error, some (g.production c.head).place,
    s!"Left recursion detected: \"{spelling g (c.head :: c.way)}\""⟩

------------------------------------------------------------
-- Walks
------------------------------------------------------------

section Walks

variable {C : ProdId → ProdId → Prop} {g : Grammar}
variable {before : List Diagnostic} {cycles : List Cycle}

/-
  What has been reported: genuine cycles, with heads that are
  done and that differ from each other.
-/
structure Reports
    (C : ProdId → ProdId → Prop)
    (g : Grammar)
    (before : List Diagnostic)
    (cycles : List Cycle)
    (s : Session) : Prop where
  links : ∀ p q, q ∈ linksOf s p ↔ C p q
  entries : s.diagnostics.entries.toList =
    before ++ cycles.map (Cycle.report g)
  heads : (cycles.map Cycle.head).Nodup
  done : ∀ c ∈ cycles, statusOf s c.head = .done
  closes : ∀ c ∈ cycles, c.Closes C

/- What holds wherever a walk stands while no cycle is open. -/
structure Searching
    (C : ProdId → ProdId → Prop)
    (g : Grammar)
    (before : List Diagnostic)
    (cycles : List Cycle)
    (s : Session) : Prop where
  reports : Reports C g before cycles s
  unreported : ∀ q, statusOf s q ≠ .onStackReported
  covers : ∀ q, statusOf s q = .done →
    Relation.TransGen C q q → Reported C cycles q

/-
  What holds while productions are left on a cycle that closes
  at `v`.  Compared with before, `v` alone is marked, and what
  is done lies on that cycle if nothing else was reported.
-/
structure Unwinding
    (C : ProdId → ProdId → Prop)
    (g : Grammar)
    (before : List Diagnostic)
    (cycles : List Cycle)
    (v : ProdId)
    (s : Session) : Prop where
  reports : Reports C g before cycles s
  marked : statusOf s v = .onStackReported
  unreported : ∀ q, q ≠ v → statusOf s q ≠ .onStackReported
  covers : ∀ q, statusOf s q = .done →
    Relation.TransGen C q q →
      Reported C cycles q ∨ Together C q v

theorem Reports.found
    {s : Session}
    (hReports : Reports C g before cycles s) :
    Statuses.Found C cycles (statusOf s) :=
  ⟨hReports.heads, hReports.done, hReports.closes⟩

/- Reports are told in the order in which they were found. -/
theorem reports_of_found
    {s : Session}
    (hLinks : ∀ p q, q ∈ linksOf s p ↔ C p q)
    (hEntries : s.diagnostics.entries.toList =
      before ++ cycles.map (Cycle.report g))
    (hFound : Statuses.Found C cycles (statusOf s)) :
    Reports C g before cycles s :=
  ⟨hLinks, hEntries, hFound.heads, hFound.done, hFound.closes⟩

theorem Searching.seeks
    {s : Session}
    (hSearching : Searching C g before cycles s) :
    Statuses.Seeks C cycles (statusOf s) :=
  ⟨hSearching.reports.found, hSearching.unreported,
    hSearching.covers⟩

theorem searching_of_seeks
    {s : Session}
    (hLinks : ∀ p q, q ∈ linksOf s p ↔ C p q)
    (hEntries : s.diagnostics.entries.toList =
      before ++ cycles.map (Cycle.report g))
    (hSeeks : Statuses.Seeks C cycles (statusOf s)) :
    Searching C g before cycles s :=
  ⟨reports_of_found hLinks hEntries hSeeks.found,
    hSeeks.unreported, hSeeks.covers⟩

theorem Unwinding.unwinds
    {s : Session}
    {v : ProdId}
    (hUnwinding : Unwinding C g before cycles v s) :
    Statuses.Unwinds C cycles v (statusOf s) :=
  ⟨hUnwinding.reports.found, hUnwinding.marked,
    hUnwinding.unreported, hUnwinding.covers⟩

theorem unwinding_of_unwinds
    {s : Session}
    {v : ProdId}
    (hLinks : ∀ p q, q ∈ linksOf s p ↔ C p q)
    (hEntries : s.diagnostics.entries.toList =
      before ++ cycles.map (Cycle.report g))
    (hUnwinds : Statuses.Unwinds C cycles v (statusOf s)) :
    Unwinding C g before cycles v s :=
  ⟨reports_of_found hLinks hEntries hUnwinds.found,
    hUnwinds.marked, hUnwinds.unreported, hUnwinds.covers⟩

theorem Searching.onStack
    {s : Session}
    (hSearching : Searching C g before cycles s)
    {p : ProdId}
    (hOpen : statusOf s p = .unvisited) :
    Searching C g before cycles (setStatus s p .onStack) := by
  refine searching_of_seeks hSearching.reports.links
    hSearching.reports.entries ?_
  rw [statusOf_setStatus_eq (by simp [hOpen])]
  exact hSearching.seeks.onStack hOpen

/- All links of a production have been seen. -/
theorem Searching.finish
    {s : Session}
    (hSearching : Searching C g before cycles s)
    {p : ProdId}
    (hStack : statusOf s p = .onStack)
    (hLinks : ∀ q, C p q → statusOf s q = .done) :
    Searching C g before cycles (setStatus s p .done) := by
  refine searching_of_seeks hSearching.reports.links
    hSearching.reports.entries ?_
  rw [statusOf_setStatus_eq (by simp [hStack])]
  exact hSearching.seeks.finish hStack hLinks

/- A walk comes back to a production that it has not left. -/
theorem Searching.mark
    {s : Session}
    (hSearching : Searching C g before cycles s)
    {v : ProdId}
    (hStack : statusOf s v = .onStack) :
    Unwinding C g before cycles v
      (setStatus s v .onStackReported) := by
  refine unwinding_of_unwinds hSearching.reports.links
    hSearching.reports.entries ?_
  rw [statusOf_setStatus_eq (by simp [hStack])]
  exact hSearching.seeks.mark hStack

/- A production on the open cycle is left. -/
theorem Unwinding.pass
    {s : Session}
    {v p : ProdId}
    (hUnwinding : Unwinding C g before cycles v s)
    (hStack : statusOf s p = .onStack)
    (hTogether : Together C p v) :
    Unwinding C g before cycles v (setStatus s p .done) := by
  refine unwinding_of_unwinds hUnwinding.reports.links
    hUnwinding.reports.entries ?_
  rw [statusOf_setStatus_eq (by simp [hStack])]
  exact hUnwinding.unwinds.pass hStack hTogether

/- The open cycle is reported where it closes. -/
theorem Unwinding.close
    {s : Session}
    {v : ProdId}
    (hUnwinding : Unwinding C g before cycles v s)
    {way : List ProdId}
    (hWay : Way C v way v) :
    Searching C g before (cycles ++ [⟨v, way⟩])
      ((setStatus s v .done).error (g.production v).place
        s!"Left recursion detected: \"{spelling g (v :: way)}\"") := by
  refine searching_of_seeks hUnwinding.reports.links ?_ ?_
  · rw [List.map_append, ← List.append_assoc,
      ← hUnwinding.reports.entries]
    exact Array.toList_push
  · change Statuses.Seeks C _ (statusOf (setStatus s v .done))
    rw [statusOf_setStatus_eq (by simp [hUnwinding.marked])]
    exact hUnwinding.unwinds.close hWay

/-
  What comes of a walk from a production.  If no cycle is left
  open, nothing but the productions reached on the way has
  changed; else a cycle is open up to a production that the
  walk came from, and it is spelled as far as it goes.
-/
def Outcome
    (C : ProdId → ProdId → Prop)
    (g : Grammar)
    (before : List Diagnostic)
    (s : Session)
    (p : ProdId)
    (others : ProdId → Prop) :
    Session × Option String → Prop
  | (s', none) =>
      (∃ cycles, Searching C g before cycles s') ∧
        statusOf s' p = .done ∧
        ∀ q, others q → Explores s s' q
  | (s', some spelled) =>
      ∃ v way, (∃ cycles, Unwinding C g before cycles v s') ∧
        others v ∧ statusOf s v = .onStack ∧
        Way C p way v ∧ spelled = spelling g (p :: way) ∧
        statusOf s' p = .done ∧
        ∀ q, q ≠ v → others q → Explores s s' q

/- What has been explored before does not change the outcome. -/
theorem Outcome.of_explores
    {s s₁ : Session}
    {p : ProdId}
    {others : ProdId → Prop}
    {r : Session × Option String}
    (hOutcome : Outcome C g before s₁ p others r)
    (hExplores : ∀ q, Explores s s₁ q) :
    Outcome C g before s p others r := by
  rcases r with ⟨s₂, _ | spelled⟩
  · rcases hOutcome with ⟨hSearching, hDone, hOthers⟩
    exact ⟨hSearching, hDone, fun q hOther =>
      (hExplores q).trans (hOthers q hOther)⟩
  · rcases hOutcome with
      ⟨v, way, hUnwinding, hAbove, hOnStack, hWay, hSpelled, hDone,
        hOthers⟩
    exact ⟨v, way, hUnwinding, hAbove,
      (hExplores v).onStack hOnStack, hWay, hSpelled, hDone,
      fun q hMarked hOther =>
        (hExplores q).trans (hOthers q hMarked hOther)⟩

/- A production is left on an open cycle. -/
theorem outcome_leave
    {s s₁ : Session}
    {p v : ProdId}
    {way : List ProdId}
    (hUnwinding : Unwinding C g before cycles v s₁)
    (hStack : statusOf s p = .onStack)
    (hAbove : statusOf s v = .onStack)
    (hReaches : Relation.ReflTransGen C v p)
    (hWay : Way C p way v)
    (hExplores : ∀ q, q ≠ v → Explores s s₁ q) :
    Outcome C g before s p (· ≠ p)
      (leave g s₁ p (spelling g (p :: way))) := by
  unfold leave
  dsimp only
  by_cases hSame : p = v
  · rw [← hSame] at hUnwinding hWay hExplores
    rw [if_pos (beq_iff_eq.mpr hUnwinding.marked)]
    refine ⟨⟨_, hUnwinding.close hWay⟩, ?_, ?_⟩
    · apply statusOf_setStatus_self
      rw [hUnwinding.marked]
      simp
    · intro q hOther
      have hHere := hExplores q hOther
      unfold Explores at hHere ⊢
      change statusOf (setStatus s₁ p .done) q = _ ∨
        _ ∧ statusOf (setStatus s₁ p .done) q = _
      rw [statusOf_setStatus_of_ne hOther]
      exact hHere
  · have hOnStack : statusOf s₁ p = .onStack := by
      rw [(hExplores p hSame).of_ne (by simp [hStack])]
      exact hStack
    rw [if_neg (by simp [hOnStack])]
    refine ⟨v, way, ⟨_, hUnwinding.pass hOnStack
      ⟨hWay.transGen.to_reflTransGen, hReaches⟩⟩, Ne.symm hSame,
      hAbove, hWay, rfl,
      statusOf_setStatus_self (by simp [hOnStack]) _, ?_⟩
    intro q hMarked hOther
    have hHere := hExplores q hMarked
    unfold Explores at hHere ⊢
    rw [statusOf_setStatus_of_ne hOther]
    exact hHere

/- Along the links of a production, if it holds of walks. -/
theorem outcome_walkLinks
    {fuel : Nat}
    (hWalk : ∀ {cycles s p}, Searching C g before cycles s →
      (∀ v, statusOf s v = .onStack →
        Relation.ReflTransGen C v p) →
      statusOf s p = .unvisited →
      (unvisited s).card ≤ fuel →
      Outcome C g before s p (fun _ => True)
        (walk g fuel s p))
    {p : ProdId}
    (links : List ProdId)
    {s : Session}
    (hSearching : Searching C g before cycles s)
    (hReaches : ∀ v, statusOf s v = .onStack →
      Relation.ReflTransGen C v p)
    (hStack : statusOf s p = .onStack)
    (hFuel : (unvisited s).card ≤ fuel)
    (hAhead : ∀ q ∈ links, C p q)
    (hLinks : ∀ q, C p q →
      q ∈ links ∨ statusOf s q = .done) :
    Outcome C g before s p (· ≠ p)
      (walkLinks g fuel p links s) := by
  induction links generalizing s cycles with
  | nil =>
      unfold walkLinks
      refine ⟨⟨cycles, hSearching.finish hStack ?_⟩, ?_, ?_⟩
      · intro q hLink
        exact (hLinks q hLink).resolve_left List.not_mem_nil
      · exact statusOf_setStatus_self (by simp [hStack]) _
      · intro q hOther
        exact .inl (statusOf_setStatus_of_ne hOther s .done)
  | cons next rest ih =>
      rw [List.forall_mem_cons] at hAhead
      -- What is left to do once the next production is done.
      have hRest : ∀ {cycles₁ s₁},
          Searching C g before cycles₁ s₁ →
          (∀ q, Explores s s₁ q) →
          statusOf s₁ next = .done →
          Outcome C g before s p (· ≠ p)
            (walkLinks g fuel p rest s₁) := by
        intro cycles₁ s₁ hSearching₁ hExplores hNext
        have hStack₁ : statusOf s₁ p = .onStack := by
          rw [(hExplores p).of_ne (by simp [hStack])]
          exact hStack
        have hFuel₁ : (unvisited s₁).card ≤ fuel :=
          (Finset.card_le_card
            (unvisited_subset hExplores)).trans hFuel
        have hLinks₁ : ∀ q, C p q →
            q ∈ rest ∨ statusOf s₁ q = .done := by
          intro q hLink
          rcases hLinks q hLink with hMem | hDone
          · rcases List.mem_cons.mp hMem with rfl | hMem
            · exact .inr hNext
            · exact .inl hMem
          · right
            rw [(hExplores q).of_ne (by simp [hDone])]
            exact hDone
        have hReaches₁ : ∀ v, statusOf s₁ v = .onStack →
            Relation.ReflTransGen C v p :=
          fun v hOnStack =>
            hReaches v ((hExplores v).onStack hOnStack)
        exact (ih hSearching₁ hReaches₁ hStack₁ hFuel₁ hAhead.2
          hLinks₁).of_explores hExplores
      unfold walkLinks
      dsimp only
      cases hNext : statusOf s next with
      | onStack =>
          dsimp only
          rw [spelling_pair]
          exact outcome_leave (hSearching.mark hNext) hStack
            hNext (hReaches next hNext) (.last hAhead.1)
            (fun q hOther => .inl
              (statusOf_setStatus_of_ne hOther s _))
      | unvisited =>
          dsimp only
          have hOutcome := hWalk hSearching
            (fun v hOnStack =>
              (hReaches v hOnStack).tail hAhead.1)
            hNext hFuel
          generalize walk g fuel s next = r at hOutcome
          rcases r with ⟨s₁, _ | spelled⟩
          · rcases hOutcome with
              ⟨⟨cycles₁, hSearching₁⟩, hDone, hOthers⟩
            exact hRest hSearching₁
              (fun q => hOthers q trivial) hDone
          · rcases hOutcome with
              ⟨v, way, ⟨cycles₁, hUnwinding⟩, -, hOnStack, hWay,
                hSpelled, -, hOthers⟩
            dsimp only
            rw [hSpelled, spelling_cons]
            exact outcome_leave hUnwinding hStack hOnStack
              (hReaches v hOnStack) (.next hAhead.1 hWay)
              (fun q hOther => hOthers q hOther trivial)
      | onStackReported =>
          exact absurd hNext (hSearching.unreported next)
      | done => exact hRest hSearching (fun _ => .inl rfl) hNext

/- A walk covers what it comes to, or leaves a cycle open. -/
theorem outcome_walk
    {fuel : Nat}
    {s : Session}
    {p : ProdId}
    (hSearching : Searching C g before cycles s)
    (hReaches : ∀ v, statusOf s v = .onStack →
      Relation.ReflTransGen C v p)
    (hOpen : statusOf s p = .unvisited)
    (hFuel : (unvisited s).card ≤ fuel) :
    Outcome C g before s p (fun _ => True)
      (walk g fuel s p) := by
  induction fuel generalizing s p cycles with
  | zero =>
      have hNone := Finset.card_eq_zero.mp
        (Nat.le_zero.mp hFuel)
      have hMem := mem_unvisited.mpr hOpen
      rw [hNone] at hMem
      exact absurd hMem (Finset.notMem_empty p)
  | succ fuel ih =>
      unfold walk
      have hSelf := statusOf_setStatus_self
        (s := s) (p := p) (by simp [hOpen]) .onStack
      have hReaches' : ∀ v,
          statusOf (setStatus s p .onStack) v = .onStack →
            Relation.ReflTransGen C v p := by
        intro v hOnStack
        by_cases hSame : v = p
        · rw [hSame]
        · rw [statusOf_setStatus_of_ne hSame] at hOnStack
          exact hReaches v hOnStack
      have hOutcome := outcome_walkLinks ih (linksOf s p)
        (hSearching.onStack hOpen) hReaches' hSelf
        (Nat.le_of_lt_succ
          ((card_unvisited_onStack hOpen).trans_le hFuel))
        (fun q hMem => (hSearching.reports.links p q).mp hMem)
        (fun q hLink => .inl
          ((hSearching.reports.links p q).mpr hLink))
      change Outcome C g before s p (fun _ => True)
        (walkLinks g fuel p (linksOf s p) _)
      generalize walkLinks g fuel p (linksOf s p)
        (setStatus s p .onStack) = r at hOutcome
      -- Beside the production itself nothing has changed before.
      have hOthers : ∀ {s' : Session} q, q ≠ p →
          Explores (setStatus s p .onStack) s' q →
            Explores s s' q := by
        intro s' q hOther hExplores
        unfold Explores at hExplores ⊢
        rw [statusOf_setStatus_of_ne hOther] at hExplores
        exact hExplores
      rcases r with ⟨s', _ | spelled⟩
      · rcases hOutcome with ⟨hSearching', hDone, hExplores⟩
        refine ⟨hSearching', hDone, ?_⟩
        intro q _
        by_cases hSame : q = p
        · rw [hSame]
          exact .inr ⟨hOpen, hDone⟩
        · exact hOthers q hSame (hExplores q hSame)
      · rcases hOutcome with
          ⟨v, way, hUnwinding, hAbove, hOnStack, hWay, hSpelled,
            hDone, hExplores⟩
        rw [statusOf_setStatus_of_ne hAbove] at hOnStack
        refine ⟨v, way, hUnwinding, trivial, hOnStack, hWay,
          hSpelled, hDone, ?_⟩
        intro q hMarked _
        by_cases hSame : q = p
        · rw [hSame]
          exact .inr ⟨hOpen, hDone⟩
        · exact hOthers q hSame (hExplores q hMarked hSame)

/- A walk from outside leaves no cycle open. -/
theorem searching_walk
    {fuel : Nat}
    {s : Session}
    {p : ProdId}
    (hSearching : Searching C g before cycles s)
    (hEmpty : ∀ q, statusOf s q ≠ .onStack)
    (hOpen : statusOf s p = .unvisited)
    (hFuel : (unvisited s).card ≤ fuel) :
    (∃ cycles, Searching C g before cycles
        (walk g fuel s p).1) ∧
      statusOf (walk g fuel s p).1 p = .done ∧
      ∀ q, Explores s (walk g fuel s p).1 q := by
  have hOutcome := outcome_walk hSearching
    (fun v hOnStack => absurd hOnStack (hEmpty v)) hOpen hFuel
  generalize walk g fuel s p = r at hOutcome
  rcases r with ⟨s', _ | spelled⟩
  · rcases hOutcome with ⟨hSearching', hDone, hOthers⟩
    exact ⟨hSearching', hDone, fun q => hOthers q trivial⟩
  · rcases hOutcome with ⟨v, way, -, -, hOnStack, -⟩
    exact absurd hOnStack (hEmpty v)

/- Walk from a production unless a walk has come to it. -/
def visit
    (g : Grammar)
    (fuel : Nat)
    (s : Session)
    (p : ProdId) : Session :=
  if statusOf s p == .unvisited then (walk g fuel s p).1 else s

theorem searching_visit
    {fuel : Nat}
    {s : Session}
    (hSearching : Searching C g before cycles s)
    (hEmpty : ∀ q, statusOf s q ≠ .onStack)
    (hFuel : (unvisited s).card ≤ fuel)
    (p : ProdId) :
    (∃ cycles, Searching C g before cycles
        (visit g fuel s p)) ∧
      statusOf (visit g fuel s p) p ≠ .unvisited ∧
      ∀ q, Explores s (visit g fuel s p) q := by
  unfold visit
  split
  · next hOpen =>
      rcases searching_walk hSearching hEmpty (eq_of_beq hOpen)
        hFuel with ⟨hSearching', hDone, hExplores⟩
      exact ⟨hSearching', by simp [hDone], hExplores⟩
  · next hVisited =>
      exact ⟨⟨cycles, hSearching⟩,
        fun hOpen => hVisited (beq_iff_eq.mpr hOpen),
        fun _ => .inl rfl⟩

/- Walks from one production after another. -/
theorem searching_foldl
    {fuel : Nat}
    (ps : List ProdId)
    {s : Session}
    (hSearching : Searching C g before cycles s)
    (hEmpty : ∀ q, statusOf s q ≠ .onStack)
    (hFuel : (unvisited s).card ≤ fuel) :
    (∃ cycles, Searching C g before cycles
        (ps.foldl (visit g fuel) s)) ∧
      (∀ q, Explores s (ps.foldl (visit g fuel) s) q) ∧
      ∀ p ∈ ps,
        statusOf (ps.foldl (visit g fuel) s) p ≠
          .unvisited := by
  induction ps generalizing s cycles with
  | nil =>
      exact ⟨⟨cycles, hSearching⟩, fun _ => .inl rfl,
        List.forall_mem_nil _⟩
  | cons p ps ih =>
      rw [List.foldl_cons]
      rcases searching_visit hSearching hEmpty hFuel p with
        ⟨⟨cycles₁, hSearching₁⟩, hVisited, hExplores⟩
      have hEmpty₁ : ∀ q,
          statusOf (visit g fuel s p) q ≠ .onStack := by
        intro q hOnStack
        rcases hExplores q with hSame | ⟨-, hDone⟩
        · exact hEmpty q (hSame.symm.trans hOnStack)
        · rw [hDone] at hOnStack
          cases hOnStack
      rcases ih hSearching₁ hEmpty₁
        ((Finset.card_le_card
          (unvisited_subset hExplores)).trans hFuel) with
        ⟨hSearching₂, hExplores₂, hAll⟩
      refine ⟨hSearching₂,
        fun q => (hExplores q).trans (hExplores₂ q),
        List.forall_mem_cons.mpr ⟨?_, hAll⟩⟩
      rw [(hExplores₂ p).of_ne hVisited]
      exact hVisited

end Walks

------------------------------------------------------------
-- The search
------------------------------------------------------------

/- The search with walks of a given length. -/
def checkTo
    (g : Grammar)
    (fuel : Nat)
    (s : Session) : Session :=
  (List.range g.productions.size).foldl (visit g fuel)
    (link g s)

theorem check_eq
    (g : Grammar)
    (s : Session) :
    check g s = checkTo g (g.productions.size + 1) s :=
  rfl

section Search

variable {g : Grammar} {s : Session}

/- At first no walk has come to a production. -/
theorem statusOf_link
    (hStart : s.facts.walkStatus =
      Array.replicate g.productions.size .unvisited)
    (q : ProdId) :
    statusOf (link g s) q =
      if q < g.productions.size then .unvisited else .done := by
  unfold statusOf
  change s.facts.walkStatus.getD q .done = _
  rw [hStart, Array.getD_eq_getD_getElem?,
    Array.getElem?_replicate]
  split
  · rfl
  · rfl

theorem card_unvisited_link
    (hStart : s.facts.walkStatus =
      Array.replicate g.productions.size .unvisited) :
    (unvisited (link g s)).card ≤ g.productions.size := by
  have hSize : (link g s).facts.walkStatus.size =
      g.productions.size := by
    change s.facts.walkStatus.size = _
    rw [hStart, Array.size_replicate]
  have hCard := Finset.card_filter_le
    (Finset.range (link g s).facts.walkStatus.size)
    fun q => statusOf (link g s) q = .unvisited
  rw [Finset.card_range] at hCard
  exact hCard.trans_eq hSize

theorem lt_size_of_linkedTo
    (hLinks : s.facts.leftExpansions =
      Array.replicate g.productions.size [])
    {q p : ProdId}
    (hLinked : LinkedTo (link g s) q p) :
    p < g.productions.size := by
  rcases (linkedTo_link hLinks q p).mp hLinked with
    ⟨_, _, hAt, -⟩
  exact (Array.getElem?_eq_some_iff.mp hAt).1

/-
  All cycles are covered once the search is over, however long
  walks may be if they may come to all productions.
-/
theorem searching_checkTo
    (hLinks : s.facts.leftExpansions =
      Array.replicate g.productions.size [])
    (hStart : s.facts.walkStatus =
      Array.replicate g.productions.size .unvisited)
    {fuel : Nat}
    (hFuel : g.productions.size ≤ fuel) :
    ∃ cycles,
      Reports (Links (link g s)) g
        s.diagnostics.entries.toList cycles
        (checkTo g fuel s) ∧
      ∀ p, Relation.TransGen (Links (link g s)) p p →
        Reported (Links (link g s)) cycles p := by
  have hStatus := statusOf_link hStart
  have hInside : ∀ {p},
      Relation.TransGen (Links (link g s)) p p →
        p < g.productions.size := by
    intro p hCyclic
    rcases Relation.TransGen.head'_iff.mp hCyclic with
      ⟨q, hLinked, -⟩
    exact lt_size_of_linkedTo hLinks hLinked
  have hSearching : Searching (Links (link g s)) g
      s.diagnostics.entries.toList [] (link g s) := by
    refine ⟨⟨fun _ _ => Iff.rfl, (List.append_nil _).symm,
      List.nodup_nil, List.forall_mem_nil _,
      List.forall_mem_nil _⟩, ?_, ?_⟩
    · intro q
      rw [hStatus]
      split
      · simp
      · simp
    · intro q hDone hCyclic
      rw [hStatus, if_pos (hInside hCyclic)] at hDone
      cases hDone
  have hEmpty : ∀ q, statusOf (link g s) q ≠ .onStack := by
    intro q
    rw [hStatus]
    split
    · simp
    · simp
  rcases searching_foldl (List.range g.productions.size)
    hSearching hEmpty
    ((card_unvisited_link hStart).trans hFuel) with
    ⟨⟨cycles, hSearched⟩, hExplores, hAll⟩
  refine ⟨cycles, hSearched.reports, ?_⟩
  intro p hCyclic
  refine hSearched.covers p ?_ hCyclic
  have hVisited := hAll p (List.mem_range.mpr (hInside hCyclic))
  rcases hExplores p with hSame | ⟨-, hDone⟩
  · rw [hStatus, if_pos (hInside hCyclic)] at hSame
    exact absurd hSame hVisited
  · exact hDone

end Search

------------------------------------------------------------
-- The length of walks
------------------------------------------------------------

section Length

variable {g : Grammar}

theorem unvisited_setStatus
    (s : Session)
    (p : ProdId)
    {status : WalkStatus}
    (hVisited : status ≠ .unvisited) :
    unvisited (setStatus s p status) ⊆ unvisited s := by
  intro q hq
  rw [mem_unvisited, statusOf_setStatus] at hq
  split at hq
  · exact absurd hq hVisited
  · exact mem_unvisited.mpr hq

theorem unvisited_leave
    (s : Session)
    (p : ProdId)
    (spelled : String) :
    unvisited (leave g s p spelled).1 ⊆ unvisited s := by
  have hDone : unvisited (setStatus s p .done) ⊆ unvisited s :=
    unvisited_setStatus s p (by simp)
  unfold leave
  dsimp only
  split
  · exact hDone
  · exact hDone

/- Along the links of a production, if it holds of walks. -/
theorem unvisited_walkLinks
    {fuel : Nat}
    (hWalk : ∀ s p, unvisited (walk g fuel s p).1 ⊆ unvisited s)
    (p : ProdId)
    (links : List ProdId)
    (s : Session) :
    unvisited (walkLinks g fuel p links s).1 ⊆ unvisited s := by
  induction links generalizing s with
  | nil =>
      unfold walkLinks
      exact unvisited_setStatus s p (by simp)
  | cons next rest ih =>
      unfold walkLinks
      dsimp only
      split
      · exact (unvisited_leave _ p _).trans
          (unvisited_setStatus s next (by simp))
      · have hNext := hWalk s next
        generalize walk g fuel s next = r at hNext
        rcases r with ⟨s₁, _ | spelled⟩
        · exact (ih s₁).trans hNext
        · exact (unvisited_leave s₁ p _).trans hNext
      · exact ih s

theorem unvisited_walk
    (fuel : Nat)
    (s : Session)
    (p : ProdId) :
    unvisited (walk g fuel s p).1 ⊆ unvisited s := by
  induction fuel generalizing s p with
  | zero =>
      unfold walk
      exact Finset.Subset.refl _
  | succ fuel ih =>
      unfold walk
      exact (unvisited_walkLinks ih p _ _).trans
        (unvisited_setStatus s p (by simp))

/- Along the links of a production, if it holds of walks. -/
theorem walkLinks_eq
    {fuel fuel' : Nat}
    (hWalk : ∀ {s p}, statusOf s p = .unvisited →
      (unvisited s).card ≤ fuel → (unvisited s).card ≤ fuel' →
        walk g fuel s p = walk g fuel' s p)
    (p : ProdId)
    (links : List ProdId)
    {s : Session}
    (hFuel : (unvisited s).card ≤ fuel)
    (hFuel' : (unvisited s).card ≤ fuel') :
    walkLinks g fuel p links s = walkLinks g fuel' p links s := by
  induction links generalizing s with
  | nil =>
      unfold walkLinks
      rfl
  | cons next rest ih =>
      unfold walkLinks
      dsimp only
      cases hNext : statusOf s next with
      | onStack => rfl
      | unvisited =>
          dsimp only
          rw [← hWalk hNext hFuel hFuel']
          have hFewer := Finset.card_le_card
            (unvisited_walk (g := g) fuel s next)
          generalize walk g fuel s next = r at hFewer
          rcases r with ⟨s₁, _ | spelled⟩
          · exact ih (hFewer.trans hFuel) (hFewer.trans hFuel')
          · rfl
      | onStackReported => exact ih hFuel hFuel'
      | done => exact ih hFuel hFuel'

/- No walk is longer than there are productions to come to. -/
theorem walk_eq
    {fuel fuel' : Nat}
    {s : Session}
    {p : ProdId}
    (hOpen : statusOf s p = .unvisited)
    (hFuel : (unvisited s).card ≤ fuel)
    (hFuel' : (unvisited s).card ≤ fuel') :
    walk g fuel s p = walk g fuel' s p := by
  have hSome : 0 < (unvisited s).card :=
    Finset.card_pos.mpr ⟨p, mem_unvisited.mpr hOpen⟩
  induction fuel generalizing fuel' s p with
  | zero => omega
  | succ fuel ih =>
      cases fuel' with
      | zero => omega
      | succ fuel' =>
          have hFewer := card_unvisited_onStack hOpen
          unfold walk
          apply walkLinks_eq ?_ p
          · omega
          · omega
          · intro s p hOpen hFuel hFuel'
            exact ih hOpen hFuel hFuel' (Finset.card_pos.mpr
              ⟨p, mem_unvisited.mpr hOpen⟩)

theorem foldl_visit_eq
    {fuel fuel' : Nat}
    (ps : List ProdId)
    {s : Session}
    (hFuel : (unvisited s).card ≤ fuel)
    (hFuel' : (unvisited s).card ≤ fuel') :
    ps.foldl (visit g fuel) s = ps.foldl (visit g fuel') s := by
  induction ps generalizing s with
  | nil => rfl
  | cons p ps ih =>
      have hSame : visit g fuel' s p = visit g fuel s p := by
        unfold visit
        split
        · next hOpen =>
            rw [walk_eq (eq_of_beq hOpen) hFuel' hFuel]
        · rfl
      have hFewer : unvisited (visit g fuel s p) ⊆
          unvisited s := by
        unfold visit
        split
        · exact unvisited_walk fuel s p
        · exact Finset.Subset.refl _
      have hCard := Finset.card_le_card hFewer
      rw [List.foldl_cons, List.foldl_cons, hSame]
      exact ih (hCard.trans hFuel) (hCard.trans hFuel')

/- Longer walks than there are productions change nothing. -/
theorem checkTo_eq
    {s : Session}
    (hStart : s.facts.walkStatus =
      Array.replicate g.productions.size .unvisited)
    {fuel : Nat}
    (hFuel : g.productions.size ≤ fuel) :
    checkTo g fuel s = check g s := by
  have hCard := card_unvisited_link hStart
  rw [check_eq]
  exact foldl_visit_eq _ (hCard.trans hFuel)
    (Nat.le_succ_of_le hCard)

end Length

------------------------------------------------------------
-- Searches that report nothing
------------------------------------------------------------

/- Links lead down if no cycle has been reported. -/
theorem wellFounded_of_clean
    {g : Grammar}
    {s : Session}
    (hLinks : s.facts.leftExpansions =
      Array.replicate g.productions.size [])
    (hStart : s.facts.walkStatus =
      Array.replicate g.productions.size .unvisited)
    (hClean : (check g s).Clean) :
    WellFounded (LinkedTo (link g s)) := by
  rcases searching_checkTo hLinks hStart (Nat.le_succ _) with
    ⟨cycles, hReports, hCovers⟩
  have hNone : cycles = [] :=
    hClean.eq_nil (fun _ => rfl) hReports.entries
  have hAcyclic : Acyclic (LinkedTo (link g s)) := by
    intro p hCyclic
    have hAround :
        Relation.TransGen (Links (link g s)) p p :=
      Relation.TransGen.swap p p hCyclic
    rcases hCovers p hAround with ⟨c, hMem, -⟩
    rw [hNone] at hMem
    cases hMem
  exact hAcyclic.wellFounded
    fun _ _ hLinked => lt_size_of_linkedTo hLinks hLinked

end LeftRecursion

end Descent
