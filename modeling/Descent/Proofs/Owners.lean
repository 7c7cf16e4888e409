import Descent.Proofs.Ownership

/-
  The recorded owners of expansions.

  Every expansion records who owns it: the expansion of which it
  is a part, or the production whose body it is.  Each call of a
  builder records the owner of all that it puts in place, so
  what is recorded is a place of the expansion, and only what
  stands nowhere has none.  If no expansion stands in two
  places, the recorded one is the only one.

  Main declarations:
    * `Grammar.Holds`
    * `Grammar.Recorded` and `Made.recorded`
    * `Grammar.Attributed` and `attributed_analyze`
-/

------------------------------------------------------------
-- Places
------------------------------------------------------------

namespace Descent

namespace Grammar

/- The owner that an expansion has recorded. -/
def owner?
    (g : Grammar)
    (e : ExpId) : Option Owner :=
  (g.node e).owner

/- An expansion is a part of another one, or a whole body. -/
def Holds
    (g : Grammar)
    (e : ExpId) : Owner → Prop
  | .node whole => g.ChildOf e whole
  | .production p =>
      ∃ q, g.productions[p]? = some q ∧ q.expansion? = some e

theorem holds_node
    {g : Grammar}
    {e whole : ExpId} :
    g.Holds e (.node whole) ↔ e ∈ g.children whole :=
  Iff.rfl

theorem holds_production
    {g : Grammar}
    {e : ExpId}
    {p : ProdId} :
    g.Holds e (.production p) ↔
      ∃ q, g.productions[p]? = some q ∧ q.expansion? = some e :=
  Iff.rfl

/- What has a place has recorded one. -/
structure Recorded
    (g : Grammar) : Prop where
  held : ∀ e o, g.owner? e = some o → g.Holds e o
  known : ∀ e o, g.Holds e o → g.owner? e ≠ none

/- Nothing loses its place, and what gets one records it. -/
structure Adopts
    (g g' : Grammar) : Prop where
  stays : ∀ e o, g.Holds e o → g'.Holds e o
  records : ∀ e,
    g'.owner? e = g.owner? e ∧
        (∀ o, g'.Holds e o → g.Holds e o) ∨
      ∃ o, g'.owner? e = some o ∧ g'.Holds e o

theorem Adopts.refl
    (g : Grammar) :
    g.Adopts g :=
  ⟨fun _ _ h => h, fun _ => .inl ⟨rfl, fun _ h => h⟩⟩

theorem Adopts.trans
    {g g' g'' : Grammar}
    (hFirst : g.Adopts g')
    (hSecond : g'.Adopts g'') :
    g.Adopts g'' := by
  refine ⟨fun e o h => hSecond.stays e o (hFirst.stays e o h),
    fun e => ?_⟩
  rcases hSecond.records e with ⟨hOwner, hPlaces⟩ | hNew
  · rcases hFirst.records e with
      ⟨hOwner', hPlaces'⟩ | ⟨o, hOwner', hHolds⟩
    · exact .inl ⟨hOwner.trans hOwner',
        fun o h => hPlaces' o (hPlaces o h)⟩
    · exact .inr ⟨o, hOwner.trans hOwner',
        hSecond.stays e o hHolds⟩
  · exact .inr hNew

theorem Recorded.adopts
    {g g' : Grammar}
    (hRecorded : g.Recorded)
    (hAdopts : g.Adopts g') :
    g'.Recorded := by
  constructor
  · intro e o hOwner
    rcases hAdopts.records e with ⟨hSame, -⟩ | ⟨o', hNew, hHolds⟩
    · rw [hSame] at hOwner
      exact hAdopts.stays e o (hRecorded.held e o hOwner)
    · rw [hNew] at hOwner
      cases hOwner
      exact hHolds
  · intro e o hHolds
    rcases hAdopts.records e with ⟨hSame, hOld⟩ | ⟨o', hNew, -⟩
    · rw [hSame]
      exact hRecorded.known e o (hOld o hHolds)
    · rw [hNew]
      exact Option.some_ne_none o'

/- Places and owners are as they were. -/
theorem adopts_of_same
    {g g' : Grammar}
    (hOwner : ∀ e, g'.owner? e = g.owner? e)
    (hHolds : ∀ e o, g'.Holds e o ↔ g.Holds e o) :
    g.Adopts g' where
  stays e o := (hHolds e o).mpr
  records e := .inl ⟨hOwner e, fun o => (hHolds e o).mp⟩

theorem holds_congr
    {g g' : Grammar}
    (hProductions : g'.productions = g.productions)
    (hChildren : ∀ v, g'.children v = g.children v)
    (e : ExpId)
    (o : Owner) :
    g'.Holds e o ↔ g.Holds e o := by
  cases o with
  | node whole => rw [holds_node, holds_node, hChildren]
  | production p =>
      rw [holds_production, holds_production, hProductions]

theorem SameRules.adopts
    {g g' : Grammar}
    (hSame : g.SameRules g') :
    g.Adopts g' := by
  apply adopts_of_same
  · intro e
    unfold owner? node
    rw [hSame.expansions]
  · exact holds_congr hSame.productions
      (children_congr hSame.form)

------------------------------------------------------------
-- New parts
------------------------------------------------------------

theorem owner?_modifyNode
    (g : Grammar)
    (id : ExpId)
    (f : ExpNode → ExpNode)
    (hOwner : ∀ n, (f n).owner = n.owner)
    (e : ExpId) :
    (g.modifyNode id f).owner? e = g.owner? e := by
  unfold owner?
  rw [node_modifyNode]
  split
  · next hHere => rw [hOwner, hHere.1]
  · rfl

theorem owner?_setForm
    (g : Grammar)
    (id : ExpId)
    (form : Expansion)
    (e : ExpId) :
    (g.modifyNode id fun n =>
      { n with form := form }).owner? e = g.owner? e :=
  g.owner?_modifyNode id (fun n => { n with form := form })
    (fun _ => rfl) e

theorem owner?_own
    (g : Grammar)
    (id : ExpId)
    (o : Owner)
    (e : ExpId) :
    (g.modifyNode id fun n =>
        { n with owner := some o }).owner? e =
      if e = id ∧ id < g.expansions.size then some o
      else g.owner? e := by
  unfold owner?
  rw [node_modifyNode]
  split
  · rfl
  · rfl

theorem owner?_adopt
    (g : Grammar)
    (whole : ExpId)
    {parts : List ExpId}
    (hInside : ∀ part ∈ parts, part < g.expansions.size)
    (e : ExpId) :
    (g.adopt whole parts).owner? e =
      if e ∈ parts then some (.node whole) else g.owner? e := by
  unfold adopt
  induction parts generalizing g with
  | nil => rfl
  | cons part parts ih =>
      rw [List.forall_mem_cons] at hInside
      have hRest := ih (g.modifyNode part fun n =>
        { n with owner := some (.node whole) })
        (by simpa using hInside.2)
      rw [List.foldl_cons, hRest, owner?_own]
      by_cases hLater : e ∈ parts
      · rw [if_pos hLater, if_pos (List.mem_cons_of_mem _ hLater)]
      · rw [if_neg hLater]
        by_cases hHere : e = part
        · rw [if_pos ⟨hHere, hInside.1⟩,
            if_pos (List.mem_cons.mpr (.inl hHere))]
        · rw [if_neg fun h => hHere h.1, if_neg fun h =>
            (List.mem_cons.mp h).elim hHere hLater]

theorem children_adopt
    (g : Grammar)
    (whole : ExpId)
    (parts : List ExpId)
    (e : ExpId) :
    (g.adopt whole parts).children e = g.children e :=
  children_congr (g.form_adopt whole parts) e

/- An expansion has got parts, and then it adopts them. -/
theorem adopts_adopt
    {g g' : Grammar}
    {whole : ExpId}
    {parts : List ExpId}
    (hOwner : ∀ e, g'.owner? e = g.owner? e)
    (hProductions : g'.productions = g.productions)
    (hOthers : ∀ v, v ≠ whole → g'.children v = g.children v)
    (hBefore : g.children whole = [])
    (hParts : g'.children whole = parts)
    (hInside : ∀ part ∈ parts, part < g'.expansions.size) :
    g.Adopts (g'.adopt whole parts) := by
  have hHolds : ∀ e o, (g'.adopt whole parts).Holds e o ↔
      g'.Holds e o :=
    holds_congr (productions_adopt g' whole parts)
      (g'.children_adopt whole parts)
  constructor
  · intro e o hPlace
    rw [hHolds]
    cases o with
    | node v =>
        rw [holds_node] at hPlace ⊢
        have hNew : v ≠ whole := by
          rintro rfl
          rw [hBefore] at hPlace
          cases hPlace
        rw [hOthers v hNew]
        exact hPlace
    | production p =>
        rw [holds_production] at hPlace ⊢
        rw [hProductions]
        exact hPlace
  · intro e
    rw [g'.owner?_adopt whole hInside]
    split
    · next hPart =>
        refine .inr ⟨_, rfl, ?_⟩
        rw [hHolds, holds_node, hParts]
        exact hPart
    · next hOther =>
        refine .inl ⟨hOwner e, fun o hPlace => ?_⟩
        rw [hHolds] at hPlace
        cases o with
        | node v =>
            rw [holds_node] at hPlace ⊢
            have hOld : v ≠ whole := by
              rintro rfl
              rw [hParts] at hPlace
              exact hOther hPlace
            rwa [hOthers v hOld] at hPlace
        | production p =>
            rw [holds_production] at hPlace ⊢
            rwa [hProductions] at hPlace

/- The head of a sequence matters to the lookahead alone. -/
theorem children_of_form
    {g g' : Grammar}
    {v : ExpId}
    (hForm : g'.form v = g.form v)
    (hHead : ∀ la target, g.form v = .lookahead la →
      la.target = some target →
        g'.isHeadOf v target = g.isHeadOf v target) :
    g'.children v = g.children v := by
  unfold children
  rw [hForm]
  cases hOld : g.form v with
  | lookahead la =>
      dsimp only
      cases hTarget : la.target with
      | none => rfl
      | some target =>
          dsimp only
          rw [hHead la target hOld hTarget]
  | _ => rfl

theorem children_of_size_le
    {g : Grammar}
    {v : ExpId}
    (hOutside : g.expansions.size ≤ v) :
    g.children v = [] := by
  unfold children
  rw [form_of_size_le hOutside]

/- What is added later is no part of what was there. -/
theorem children_addExpansion
    {g : Grammar}
    (hFormed : g.WellFormed)
    (form : Expansion)
    (place : Location)
    {v : ExpId}
    (hOld : v ≠ g.expansions.size) :
    (g.addExpansion form place).2.children v = g.children v := by
  have hForms := g.form_addExpansion form place
  have hHere := hForms v
  rw [if_neg hOld] at hHere
  apply children_of_form hHere
  intro la target hForm hTarget
  have hInside : v < g.expansions.size := by
    apply lt_size_of_expansion
    rw [hForm]
    nofun
  have hAdmits := hFormed.forms v hInside
  rw [hForm] at hAdmits
  unfold isHeadOf
  rw [hForms, if_neg (Nat.ne_of_lt (hAdmits target hTarget))]

/- What is added has no owner yet. -/
theorem owner?_addExpansion
    (g : Grammar)
    (form : Expansion)
    (place : Location)
    (e : ExpId) :
    (g.addExpansion form place).2.owner? e = g.owner? e := by
  unfold owner?
  rw [node_addExpansion]
  split
  · next hNew =>
      rw [hNew]
      unfold node
      rw [Array.getD_eq_getD_getElem?,
        Array.getElem?_eq_none le_rfl]
      rfl
  · rfl

/- An expansion is added, and it adopts its parts. -/
theorem adopts_addExpansion
    {g : Grammar}
    (hFormed : g.WellFormed)
    {form : Expansion}
    (hAdmits : g.Admits form)
    (place : Location)
    {parts : List ExpId}
    (hParts : form.parts? = some parts) :
    g.Adopts ((g.addExpansion form place).2.adopt
      g.expansions.size parts) := by
  have hForm : (g.addExpansion form place).2.form
      g.expansions.size = form := by
    rw [form_addExpansion, if_pos rfl]
  replace hParts := children_of_parts? hForm hParts
  apply adopts_adopt
  · exact g.owner?_addExpansion form place
  · rfl
  · exact fun v hOld => children_addExpansion hFormed form place
      hOld
  · exact children_of_size_le le_rfl
  · exact hParts
  · intro part hPart
    rw [← hForm] at hAdmits
    rw [← hParts] at hPart
    rw [size_addExpansion]
    exact Nat.lt_succ_of_lt (hAdmits.children_lt part hPart)

/- A lookahead gets its target, and adopts it. -/
theorem adopts_setTarget
    {g : Grammar}
    {id : ExpId}
    (target : ExpId)
    {old : Lookahead}
    (hForm : g.form id = .lookahead old)
    (hNone : old.target = none)
    {la : Lookahead}
    (hTarget : la.target = some target)
    (hInside : target < g.expansions.size)
    (parts : List ExpId)
    (hParts : (if g.isHeadOf id target then [] else [target]) =
      parts) :
    g.Adopts ((g.modifyNode id fun n =>
      { n with form := .lookahead la }).adopt id parts) := by
  have hThere : id < g.expansions.size := by
    apply lt_size_of_expansion
    rw [hForm]
    nofun
  have hForms := g.form_modifyNode id fun n =>
    { n with form := .lookahead la }
  have hHeads : ∀ v seq, (g.modifyNode id fun n =>
      { n with form := .lookahead la }).isHeadOf v seq =
        g.isHeadOf v seq := by
    intro v seq
    unfold isHeadOf
    rw [hForms]
    by_cases hHere : seq = id ∧ id < g.expansions.size
    · rw [if_pos hHere, hHere.1, hForm]
    · rw [if_neg hHere]
  apply adopts_adopt
  · exact g.owner?_setForm id (.lookahead la)
  · rfl
  · intro v hOther
    apply children_of_form
    · rw [hForms, if_neg fun h => hOther h.1]
    · exact fun _ _ _ _ => hHeads _ _
  · unfold children
    rw [hForm]
    dsimp only
    rw [hNone]
  · unfold children
    rw [hForms, if_pos ⟨rfl, hThere⟩]
    dsimp only
    rw [hTarget]
    dsimp only
    rw [hHeads, hParts]
  · intro part hPart
    rw [size_modifyNode]
    rw [← hParts] at hPart
    split at hPart
    · cases hPart
    · rw [List.mem_singleton.mp hPart]
      exact hInside

end Grammar

------------------------------------------------------------
-- Calls of a builder
------------------------------------------------------------

namespace Build

open Grammar

section Tokens

theorem sameRules_declareStates
    (b : Builder)
    (names : List String) :
    b.grammar.SameRules
      ((names.forM declareState).run b).2.grammar := by
  induction names generalizing b with
  | nil => exact .refl _
  | cons name names ih =>
      have hFirst : b.grammar.SameRules
          ((declareState name).run b).2.grammar := by
        change b.grammar.SameRules (if _ then _ else _)
        split
        · exact .refl _
        · exact ⟨rfl, rfl⟩
      exact hFirst.trans (ih _)

theorem sameRules_tokenSection
    (b : Builder)
    (states : Option (List String))
    (cls : TokenClass)
    (ignoreCase : Bool) :
    b.grammar.SameRules
      ((tokenSection states cls ignoreCase).run b).2.grammar :=
  (sameRules_declareStates b (states.getD [])).trans ⟨rfl, rfl⟩

theorem sameRules_token
    (b : Builder)
    (name : String)
    (regex : RegexId) :
    b.grammar.SameRules
      ((token name regex).run b).2.grammar :=
  (sameRules_tokenSection b (some [defaultState]) .token
    false).trans ⟨rfl, rfl⟩

theorem sameRules_impliedSection
    (b : Builder)
    (regex : RegexId) :
    b.grammar.SameRules
      ((impliedSection regex).run b).2.grammar := by
  unfold impliedSection
  rw [run_look_bind]
  split
  · exact .refl _
  · exact ⟨rfl, rfl⟩

end Tokens

section Expansions

variable {b : Builder} (hFormed : b.grammar.WellFormed)

include hFormed

/- An expansion without parts is added. -/
theorem adopts_leaf
    (form : Expansion)
    (hAdmits : b.grammar.Admits form)
    (place : Location)
    (hNone : form.parts? = some []) :
    b.grammar.Adopts
      ((expansionAt form place).run b).2.grammar :=
  adopts_addExpansion hFormed hAdmits place hNone

theorem adopts_terminal
    {regex : RegexId}
    (hRegex : regex < b.grammar.regexes.size) :
    b.grammar.Adopts ((terminal regex).run b).2.grammar := by
  have hSection := extends_impliedSection hFormed hRegex
  let b₁ := ((impliedSection regex).run b).2
  have hAdmits : b₁.grammar.Admits
      (.terminal regex none none) :=
    ⟨hRegex.trans_le hSection.1.grows.regexSize, hSection.2⟩
  exact (sameRules_impliedSection b regex).adopts.trans
    (adopts_leaf hSection.1.formed _ hAdmits
      (b₁.grammar.regex regex).place rfl)

/- A lookahead that comes later is at the head of nothing. -/
theorem isHeadOf_eq_false
    {e : ExpId}
    (hInside : e < b.grammar.expansions.size)
    {g : Grammar}
    (hForm : g.form e = b.grammar.form e)
    {id : ExpId}
    (hLater : b.grammar.expansions.size ≤ id) :
    g.isHeadOf id e = false := by
  rw [Bool.eq_false_iff]
  intro hHead
  rcases form_of_isHeadOf hHead with ⟨rest, hSequence⟩
  rw [hForm] at hSequence
  have hAdmits := hFormed.forms e hInside
  rw [hSequence] at hAdmits
  exact hLater.not_gt (hAdmits.1 id List.mem_cons_self)

/- A sequence and its lookahead, which gets its target last. -/
theorem adopts_headedSequence
    (amount : Nat)
    (explicit : Bool)
    (guard : Option String)
    (scan : Option ExpId)
    (hScan : ∀ e ∈ scan, e < b.grammar.expansions.size)
    {units : List ExpId}
    (hUnits : ∀ u ∈ units, u < b.grammar.expansions.size) :
    b.grammar.Adopts
      ((headedSequence amount explicit guard scan units).run
        b).2.grammar := by
  let head := b.grammar.expansions.size
  let la : Lookahead := ⟨amount, explicit, guard, none⟩
  let g₁ := (b.grammar.addExpansion (.lookahead la)
    b.nextPlace).2
  have hNone : b.grammar.Admits (.lookahead la) := by
    intro target hTarget
    cases hTarget
  have hFormed₁ : g₁.WellFormed :=
    hFormed.addExpansion hNone b.nextPlace
  have hFirst : b.grammar.Adopts g₁ :=
    adopts_addExpansion hFormed hNone b.nextPlace rfl
  have hForms₁ := b.grammar.form_addExpansion (.lookahead la)
    b.nextPlace
  have hSize₁ : g₁.expansions.size = head + 1 :=
    size_addExpansion _ _ _
  have hAdmits : g₁.Admits (.sequence (head :: units)) := by
    refine ⟨?_, head, units, rfl, ?_⟩
    · rw [hSize₁]
      rw [List.forall_mem_cons]
      exact ⟨Nat.lt_succ_self _,
        fun u hu => Nat.lt_succ_of_lt (hUnits u hu)⟩
    · rw [hForms₁, if_pos rfl]
      rfl
  let seq := g₁.expansions.size
  have hNext : seq = head + 1 := hSize₁
  let g₂ := (g₁.addExpansion (.sequence (head :: units))
    b.nextPlace).2.adopt seq (head :: units)
  have hSecond : g₁.Adopts g₂ :=
    adopts_addExpansion hFormed₁ hAdmits b.nextPlace rfl
  have hForms₂ : ∀ e, g₂.form e =
      if e = seq then .sequence (head :: units)
      else g₁.form e :=
    fun e => (form_adopt _ _ _ e).trans
      (g₁.form_addExpansion _ _ e)
  have hSize₂ : g₂.expansions.size = head + 2 := by
    rw [size_adopt, size_addExpansion, hSize₁]
  have hHead : g₂.form head = .lookahead la := by
    have hOther : head ≠ seq := by omega
    rw [hForms₂, if_neg hOther, hForms₁, if_pos rfl]
  have hBoth := hFirst.trans hSecond
  cases scan with
  | none =>
      refine hBoth.trans (adopts_setTarget seq hHead rfl rfl ?_ []
        ?_)
      · rw [hSize₂, hNext]
        exact Nat.lt_succ_self _
      · have hSeq : g₂.form seq = .sequence (head :: units) := by
          rw [hForms₂, if_pos rfl]
        exact if_pos (isHeadOf_of_form hSeq)
  | some e =>
      have hInside := hScan e rfl
      refine hBoth.trans (adopts_setTarget e hHead rfl rfl ?_ [e]
        ?_)
      · rw [hSize₂]
        exact hInside.trans (Nat.lt_add_of_pos_right Nat.two_pos)
      · have hOther : e ≠ seq :=
          Nat.ne_of_lt (hNext ▸ Nat.lt_succ_of_lt hInside)
        have hForm : g₂.form e = b.grammar.form e := by
          rw [hForms₂, if_neg hOther, hForms₁,
            if_neg (Nat.ne_of_lt hInside)]
        rw [isHeadOf_eq_false hFormed hInside hForm le_rfl]
        rfl

theorem adopts_sequence
    {units : List ExpId}
    (hUnits : ∀ u ∈ units, u < b.grammar.expansions.size) :
    b.grammar.Adopts ((sequence units).run b).2.grammar :=
  adopts_headedSequence hFormed b.defaultLookahead false none
    none nofun hUnits

/- An expansion is a sequence or is put into one. -/
theorem adopts_asSequence
    {id : ExpId}
    (hInside : id < b.grammar.expansions.size) :
    b.grammar.Adopts ((asSequence id).run b).2.grammar := by
  have hOne := adopts_sequence hFormed
    (List.forall_mem_singleton.mpr hInside)
  unfold asSequence
  rw [run_look_bind]
  split
  · exact .refl _
  · exact hOne

theorem adopts_repetitionBody
    {id : ExpId}
    (hInside : id < b.grammar.expansions.size) :
    b.grammar.Adopts ((repetitionBody id).run b).2.grammar := by
  have hOne := adopts_sequence hFormed
    (List.forall_mem_singleton.mpr hInside)
  unfold repetitionBody
  rw [run_look_bind]
  split
  · exact .refl _
  · exact .refl _
  · exact hOne

/- The alternatives of a choice become sequences. -/
theorem adopts_mapM_asSequence
    {ids : List ExpId}
    (hInside : ∀ id ∈ ids, id < b.grammar.expansions.size) :
    b.grammar.Adopts
      ((ids.mapM asSequence).run b).2.grammar := by
  induction ids generalizing b with
  | nil => exact .refl _
  | cons id ids ih =>
      rw [List.forall_mem_cons] at hInside
      have hFirst := yields_asSequence hFormed hInside.1
      have hRest := ih hFirst.goesOn.formed fun id' hMem =>
        (hInside.2 id' hMem).trans_le hFirst.goesOn.grows.size
      rw [List.mapM_cons]
      exact (adopts_asSequence hFormed hInside.1).trans hRest

theorem adopts_choice
    {alternatives : List ExpId}
    (hInside : ∀ alt ∈ alternatives,
      alt < b.grammar.expansions.size) :
    b.grammar.Adopts
      ((choice alternatives).run b).2.grammar := by
  have hAll := extends_mapM_asSequence hFormed hInside
  have hAdopts := adopts_mapM_asSequence hFormed hInside
  unfold choice
  rw [StateT.run_bind]
  generalize (alternatives.mapM asSequence).run b = r
    at hAll hAdopts
  rcases r with ⟨alternatives, b₁⟩
  have hAdmits : b₁.grammar.Admits (.choice alternatives) :=
    hAll.2
  cases alternatives with
  | nil =>
      exact hAdopts.trans (adopts_addExpansion hAll.1.formed
        hAdmits b₁.nextPlace rfl)
  | cons first rest =>
      exact hAdopts.trans (adopts_addExpansion hAll.1.formed
        hAdmits (b₁.grammar.place first) rfl)

/- A repetition of a body that is a sequence or a choice. -/
theorem adopts_repeated
    (make : ExpId → Expansion)
    (hMake : ∀ (g : Grammar) body, g.Repeats body →
      g.Admits (make body))
    (hParts : ∀ body, (make body).parts? = some [body])
    {body : ExpId}
    (hInside : body < b.grammar.expansions.size) :
    b.grammar.Adopts ((repeated make body).run b).2.grammar := by
  have hBody := yields_repetitionBody hFormed hInside
  have hAdopts := adopts_repetitionBody hFormed hInside
  have hGoesOn :
      ((repetitionBody body).run b).2.grammar.WellFormed ∧
        ((repetitionBody body).run b).2.grammar.Repeats
          ((repetitionBody body).run b).1 := by
    rcases hBody with hSequence | hChoice
    · exact ⟨hSequence.goesOn.formed, hSequence.inside,
        .inl hSequence.shape⟩
    · exact ⟨hChoice.goesOn.formed, hChoice.inside,
        .inr hChoice.shape⟩
  unfold repeated
  rw [StateT.run_bind]
  generalize (repetitionBody body).run b = r at hGoesOn hAdopts
  exact hAdopts.trans (adopts_addExpansion hGoesOn.1
    (hMake _ _ hGoesOn.2) r.2.nextPlace (hParts r.1))

theorem adopts_tryBlock
    {body : ExpId}
    (hInside : body < b.grammar.expansions.size)
    (catches : List CatchClause)
    (cleanup : Option String) :
    b.grammar.Adopts
      ((tryBlock body catches cleanup).run b).2.grammar := by
  have hBody := yields_asSequence hFormed hInside
  have hAdopts := adopts_asSequence hFormed hInside
  unfold tryBlock
  rw [StateT.run_bind]
  generalize (asSequence body).run b = r at hBody hAdopts
  have hAdmits : r.2.grammar.Admits
      (.tryBlock r.1 catches cleanup) :=
    ⟨hBody.inside, hBody.shape⟩
  exact hAdopts.trans (adopts_addExpansion hBody.goesOn.formed
    hAdmits r.2.nextPlace rfl)

end Expansions

section Productions

variable {b : Builder}

theorem form_assigned_eq
    (result : String)
    (member : Option String)
    (n : ExpNode) :
    (assigned result member n).form =
      match n.form with
      | .terminal r _ _ => .terminal r (some result) member
      | .nonterminal name _ args =>
          .nonterminal name (some result) args
      | form => form := by
  unfold assigned
  cases hForm : n.form with
  | terminal r result' member' => rfl
  | nonterminal name result' args => rfl
  | _ => exact hForm

/- What is assigned to keeps its parts and its owner. -/
theorem adopts_assign
    (id : ExpId)
    (result : String)
    (member : Option String) :
    b.grammar.Adopts
      ((assign id result member).run b).2.grammar := by
  change b.grammar.Adopts
    (b.grammar.modifyNode id (assigned result member))
  have hForms := b.grammar.form_modifyNode id
    (assigned result member)
  simp only [form_assigned_eq] at hForms
  have hHeads : ∀ v seq,
      (b.grammar.modifyNode id
        (assigned result member)).isHeadOf v seq =
        b.grammar.isHeadOf v seq := by
    intro v seq
    unfold isHeadOf
    rw [hForms]
    by_cases hHere : seq = id ∧ id < b.grammar.expansions.size
    · rw [if_pos hHere, hHere.1]
      unfold form
      cases (b.grammar.node id).form with
      | _ => rfl
    · rw [if_neg hHere]
  apply adopts_of_same
  · apply owner?_modifyNode
    intro n
    unfold assigned
    split
    · rfl
    · rfl
    · rfl
  · refine holds_congr rfl fun v => ?_
    unfold children
    rw [hForms]
    simp only [hHeads]
    by_cases hHere : v = id ∧ id < b.grammar.expansions.size
    · rw [if_pos hHere, hHere.1]
      unfold form
      cases (b.grammar.node id).form with
      | _ => rfl
    · rw [if_neg hHere]

/- A production is added, and it becomes an owner. -/
theorem adopts_addProduction
    (g : Grammar)
    {p : Production}
    (body : ExpId)
    (hBody : p.expansion? = some body)
    (hInside : body < g.expansions.size) :
    g.Adopts (({ g with productions := g.productions.push p } :
      Grammar).modifyNode body fun n =>
        { n with owner := some (.production g.productions.size) }) := by
  let g₁ : Grammar :=
    { g with productions := g.productions.push p }
  let g₂ := g₁.modifyNode body fun n =>
    { n with owner := some (.production g.productions.size) }
  have hChildren : ∀ v, g₂.children v = g.children v :=
    children_congr (g₁.form_own body _)
  have hOwner := g₁.owner?_own body
    (.production g.productions.size)
  have hPush : ∀ i q, g₂.productions[i]? = some q ↔
      g.productions[i]? = some q ∨
        i = g.productions.size ∧ q = p := by
    intro i q
    change (g.productions.push p)[i]? = some q ↔ _
    rw [Array.getElem?_push]
    split
    · next hNew =>
        rw [hNew, Array.getElem?_eq_none le_rfl]
        simp [eq_comm]
    · next hOld => simp [hOld]
  constructor
  · intro e o hPlace
    cases o with
    | node v =>
        rw [holds_node] at hPlace ⊢
        rw [hChildren]
        exact hPlace
    | production i =>
        rcases hPlace with ⟨q, hAt, hExpansion⟩
        exact ⟨q, (hPush i q).mpr (.inl hAt), hExpansion⟩
  · intro e
    by_cases hHere : e = body
    · refine .inr ⟨.production g.productions.size, ?_, p,
        (hPush _ p).mpr (.inr ⟨rfl, rfl⟩), hHere ▸ hBody⟩
      exact (hOwner e).trans (if_pos ⟨hHere, hInside⟩)
    · refine .inl ⟨(hOwner e).trans (if_neg fun h => hHere h.1),
        fun o hPlace => ?_⟩
      cases o with
      | node v =>
          rw [holds_node, hChildren] at hPlace
          exact hPlace
      | production i =>
          rcases hPlace with ⟨q, hAt, hExpansion⟩
          rcases (hPush i q).mp hAt with hOld | ⟨-, rfl⟩
          · exact ⟨q, hOld, hExpansion⟩
          · rw [hBody] at hExpansion
            exact absurd (Option.some.inj hExpansion).symm hHere

theorem adopts_production
    (hFormed : b.grammar.WellFormed)
    (name returnType params : String)
    {body : ExpId}
    (hInside : body < b.grammar.expansions.size) :
    b.grammar.Adopts
      ((production name returnType params body).run
        b).2.grammar := by
  have hBody := yields_asSequence hFormed hInside
  have hAdopts := adopts_asSequence hFormed hInside
  unfold production
  rw [StateT.run_bind]
  generalize (asSequence body).run b = r at hBody hAdopts
  exact hAdopts.trans (adopts_addProduction r.2.grammar r.1
    rfl hBody.inside)

/- Productions without a body own nothing. -/
theorem adopts_codeProduction
    (name : String)
    (language : Language)
    (returnType code : String) :
    b.grammar.Adopts
      ((codeProduction name language returnType code).run
        b).2.grammar := by
  apply adopts_of_same
  · exact fun _ => rfl
  · intro e o
    cases o with
    | node v => exact Iff.rfl
    | production i =>
        rw [holds_production, holds_production]
        refine exists_congr fun q => ?_
        change (b.grammar.productions.push _)[i]? = some q ∧ _ ↔ _
        rw [Array.getElem?_push]
        split
        · next hNew =>
            rw [hNew, Array.getElem?_eq_none le_rfl]
            refine iff_of_false ?_ nofun
            rintro ⟨hSame, hExpansion⟩
            cases hSame
            cases hExpansion
        · exact Iff.rfl

theorem adopts_editProduction
    (id : ProdId)
    {f : Production → Production}
    (hBody : ∀ p, (f p).expansion? = p.expansion?) :
    b.grammar.Adopts
      ((change (·.modifyProduction id f)).run b).2.grammar := by
  apply adopts_of_same
  · exact fun _ => rfl
  · intro e o
    cases o with
    | node v => exact Iff.rfl
    | production i =>
        rw [holds_production, holds_production]
        change (∃ q, (b.grammar.productions.modify id f)[i]? =
          some q ∧ _) ↔ _
        rw [Array.getElem?_modify]
        split
        · constructor
          · rintro ⟨q, hAt, hExpansion⟩
            rcases Option.map_eq_some_iff.mp hAt with
              ⟨old, hOld, rfl⟩
            exact ⟨old, hOld, (hBody old) ▸ hExpansion⟩
          · rintro ⟨q, hAt, hExpansion⟩
            refine ⟨f q, ?_, (hBody q).trans hExpansion⟩
            rw [hAt]
            rfl
        · exact Iff.rfl

end Productions

end Build

/- Whatever a call puts in place has its owner recorded. -/
theorem Call.adopts_run
    {b : Builder}
    (hFormed : b.grammar.WellFormed)
    {c : Call}
    (hValid : c.Valid b.grammar) :
    b.grammar.Adopts (c.run b).grammar := by
  have hToken : ∀ g', b.grammar.SameRules g' →
      b.grammar.Adopts g' :=
    fun _ hSame => hSame.adopts
  have hTerminal : ∀ form : Regex, form.parts = [] →
      b.grammar.Adopts
        ((Build.regexNode form >>= Build.terminal).run
          b).2.grammar := by
    intro form hParts
    have hNode := Build.extends_regexNode hFormed
      (fun part hPart => by rw [hParts] at hPart; cases hPart)
    have hSame : b.grammar.SameRules
        ((Build.regexNode form).run b).2.grammar :=
      ⟨rfl, rfl⟩
    exact hSame.adopts.trans
      (Build.adopts_terminal hNode.1.formed hNode.2)
  cases c with
  | defaultLookahead amount => exact .refl _
  | atLine line => exact .refl _
  | regex form => exact hToken _ ⟨rfl, rfl⟩
  | label id name => exact hToken _ ⟨rfl, rfl⟩
  | privateLabel id name => exact hToken _ ⟨rfl, rfl⟩
  | tokenSection states cls ignoreCase =>
      exact hToken _ (Build.sameRules_tokenSection b states cls
        ignoreCase)
  | tokenSpec home r code nextState => exact hToken _ ⟨rfl, rfl⟩
  | token name r => exact hToken _ (Build.sameRules_token b name r)
  | terminal r => exact Build.adopts_terminal hFormed hValid
  | literal image => exact hTerminal (.literal image) rfl
  | tokenReference name =>
      exact hTerminal (.reference name none) rfl
  | endOfFile => exact hTerminal .endOfFile rfl
  | assign id result member =>
      exact Build.adopts_assign id result member
  | nonterminal name args =>
      exact Build.adopts_leaf (b := (Build.takePlace.run b).2)
        hFormed (.nonterminal name none args) trivial _ rfl
  | action code =>
      exact Build.adopts_leaf (b := (Build.takePlace.run b).2)
        hFormed (.action code) trivial _ rfl
  | sequence units => exact Build.adopts_sequence hFormed hValid
  | lookaheadSequence amount scan guard units =>
      exact Build.adopts_headedSequence hFormed _ _ _ _ hValid.1
        hValid.2
  | choice alternatives =>
      exact Build.adopts_choice hFormed hValid
  | oneOrMore body =>
      exact Build.adopts_repeated hFormed .oneOrMore
        (fun _ _ hBody => hBody) (fun _ => rfl) hValid
  | zeroOrMore body =>
      exact Build.adopts_repeated hFormed .zeroOrMore
        (fun _ _ hBody => hBody) (fun _ => rfl) hValid
  | zeroOrOne body =>
      exact Build.adopts_repeated hFormed .zeroOrOne
        (fun _ _ hBody => hBody) (fun _ => rfl) hValid
  | tryBlock body catches cleanup =>
      exact Build.adopts_tryBlock hFormed hValid catches cleanup
  | production name returnType params body =>
      exact Build.adopts_production hFormed name returnType
        params hValid
  | codeProduction name language returnType code =>
      exact Build.adopts_codeProduction name language returnType
        code
  | editProduction id f =>
      exact Build.adopts_editProduction id hValid

/- What calls put together records its owners. -/
theorem Made.recorded
    {b : Builder}
    (hMade : Made b) :
    b.grammar.Recorded := by
  induction hMade with
  | start =>
      constructor
      · intro e o hOwner
        cases hOwner
      · intro e o hHolds
        cases o with
        | node whole =>
            rw [Grammar.holds_node, Grammar.children_of_size_le
              (Nat.zero_le _)] at hHolds
            cases hHolds
        | production p =>
            rcases hHolds with ⟨q, hAt, -⟩
            simp at hAt
  | call hMade c hValid ih =>
      exact ih.adopts (c.adopts_run hMade.wellFormed hValid)

------------------------------------------------------------
-- Owners after an analysis
------------------------------------------------------------

namespace Grammar

/- A place of an expansion is the owner that it has recorded. -/
def Attributed
    (g : Grammar) : Prop :=
  ∀ e o, g.Holds e o → g.owner? e = some o

/- Two productions do not have one body. -/
theorem Owned.production_unique
    {g : Grammar}
    (hOwned : g.Owned)
    {i j : ProdId}
    {p q : Production}
    {body : ExpId}
    (hp : g.productions[i]? = some p)
    (hq : g.productions[j]? = some q)
    (hLeft : p.expansion? = some body)
    (hRight : q.expansion? = some body) :
    i = j := by
  have hPairs := List.pairwise_filterMap.mp hOwned.bodies
  rw [List.pairwise_iff_getElem] at hPairs
  have hNot : ∀ {i j : ProdId} {p q : Production},
      g.productions[i]? = some p → g.productions[j]? = some q →
      p.expansion? = some body → q.expansion? = some body →
      ¬ i < j := by
    intro i j p q hp hq hLeft hRight hLess
    rcases Array.getElem?_eq_some_iff.mp hp with ⟨hi, rfl⟩
    rcases Array.getElem?_eq_some_iff.mp hq with ⟨hj, rfl⟩
    exact hPairs i j hi hj hLess body hLeft body hRight rfl
  rcases Nat.lt_trichotomy i j with hLess | hSame | hMore
  · exact absurd hLess (hNot hp hq hLeft hRight)
  · exact hSame
  · exact absurd hMore (hNot hq hp hRight hLeft)

/- No expansion has two places. -/
theorem Owned.holds_unique
    {g : Grammar}
    (hOwned : g.Owned)
    {e : ExpId}
    {o o' : Owner}
    (hLeft : g.Holds e o)
    (hRight : g.Holds e o') :
    o = o' := by
  have hApart : ∀ {whole p}, g.Holds e (.node whole) →
      ¬ g.Holds e (.production p) := by
    rintro whole p hPart ⟨q, hAt, hBody⟩
    exact hOwned.roots e
      (mem_bodies (Array.mem_of_getElem? hAt) hBody) whole hPart
  cases o with
  | node whole =>
      cases o' with
      | node whole' => rw [hOwned.wholes hLeft hRight]
      | production p => exact absurd hRight (hApart hLeft)
  | production p =>
      cases o' with
      | node whole => exact absurd hLeft (hApart hRight)
      | production p' =>
          rcases hLeft with ⟨q, hAt, hBody⟩
          rcases hRight with ⟨q', hAt', hBody'⟩
          rw [hOwned.production_unique hAt hAt' hBody hBody']

theorem Recorded.attributed
    {g : Grammar}
    (hRecorded : g.Recorded)
    (hOwned : g.Owned) :
    g.Attributed := by
  intro e o hHolds
  rcases Option.ne_none_iff_exists'.mp
    (hRecorded.known e o hHolds) with ⟨o', hOwner⟩
  rw [hOwned.holds_unique hHolds (hRecorded.held e o' hOwner)]
  exact hOwner

end Grammar

namespace LookaheadFix

section Moved

variable {g : Grammar} {id head : ExpId}
variable {la : Lookahead} {rest : List ExpId}

/- The owners after a lookahead has been moved. -/
theorem owner?_moveLookahead
    (hFix : Fixable g id head la rest)
    {size : Nat}
    (hSize : g.expansions.size = size)
    (e : ExpId) :
    (moveLookahead g id head la rest).owner? e =
      if e ∈ [size + 2, size + 3] then some (.node id)
      else if e ∈ [size + 1] then some (.node (size + 2))
      else if e ∈ [head, size] then some (.node (size + 1))
      else g.owner? e := by
  have hHead := hFix.head_lt
  rw [hSize] at hHead
  rw [moveLookahead_eq]
  extract_lets place g₁ g₂ g₃ g₄ g₅ g₆
  have h₁ : g₁.expansions.size = size + 1 :=
    (Grammar.size_addExpansion _ _ _).trans (by rw [hSize])
  have h₂ : g₂.expansions.size = size + 2 :=
    (Grammar.size_addExpansion _ _ _).trans (by rw [h₁])
  have h₃ : g₃.expansions.size = size + 3 :=
    (Grammar.size_addExpansion _ _ _).trans (by rw [h₂])
  have h₄ : g₄.expansions.size = size + 4 :=
    (Grammar.size_addExpansion _ _ _).trans (by rw [h₃])
  have h₅ : g₅.expansions.size = size + 4 :=
    (Grammar.size_modifyNode _ _ _).trans h₄
  have hBefore : g₅.owner? e = g.owner? e := by
    calc g₅.owner? e
        = g₄.owner? e :=
          g₄.owner?_setForm head _ e
      _ = g₃.owner? e := g₃.owner?_addExpansion _ _ e
      _ = g₂.owner? e := g₂.owner?_addExpansion _ _ e
      _ = g₁.owner? e := g₁.owner?_addExpansion _ _ e
      _ = g.owner? e := g.owner?_addExpansion _ _ e
  refine (g₆.owner?_setForm id _ e).trans ?_
  rw [Grammar.owner?_adopt, Grammar.owner?_adopt,
    Grammar.owner?_adopt, hBefore, h₁, h₂, h₃, hSize]
  · intro part hPart
    rw [h₅]
    rcases List.mem_pair.mp hPart with rfl | rfl
    · exact Nat.lt_add_right 4 hHead
    · exact show g.expansions.size < size + 4 by omega
  · intro part hPart
    rw [Grammar.size_adopt, h₅, List.mem_singleton.mp hPart]
    exact show g₁.expansions.size < size + 4 by omega
  · intro part hPart
    rw [Grammar.size_adopt, Grammar.size_adopt, h₅]
    rcases List.mem_pair.mp hPart with rfl | rfl
    · exact show g₂.expansions.size < size + 4 by omega
    · exact show g₃.expansions.size < size + 4 by omega

/- Moving a lookahead records what is put in place. -/
theorem attributed_moveLookahead
    (hFix : Fixable g id head la rest)
    (hArranged : g.Arranged)
    (hAttributed : g.Attributed) :
    (moveLookahead g id head la rest).Attributed := by
  generalize hSize : g.expansions.size = size
  have hHead : g.ChildOf head id :=
    hFix.childOf List.mem_cons_self
  -- What stands where it stood is older, and it is not the head.
  have hOld : ∀ e o, e < size → e ≠ head → g.Holds e o →
      (moveLookahead g id head la rest).owner? e = some o := by
    intro e o hInside hOther hHolds
    have hNot : ∀ k, e ≠ size + k := fun k hSame =>
      absurd hInside (Nat.not_lt.mpr
        ((Nat.le_add_right size k).trans_eq hSame.symm))
    have hLess : e ≠ size := Nat.ne_of_lt hInside
    rw [owner?_moveLookahead hFix hSize, if_neg, if_neg, if_neg]
    · exact hAttributed e o hHolds
    · simp [hOther, hLess]
    · simp [hNot]
    · simp [hNot]
  intro e o hHolds
  cases o with
  | node whole =>
      have hNested := nested_moveLookahead hFix hArranged.nested
      have hInside := hNested.inside e whole hHolds
      rw [size_moveLookahead, hSize] at hInside
      rcases owner_moveLookahead hFix hArranged hSize hHolds with
        ⟨hChild, hOther, hLess⟩ | ⟨hNew, hWhole⟩
      · exact hOld e _ hLess hOther hChild
      · have hHeadIn : head < size :=
          hSize ▸ hArranged.nested.inside head id hHead
        have hApart : ∀ k, head ≠ size + k := fun k hSame =>
          absurd hHeadIn (Nat.not_lt.mpr
            ((Nat.le_add_right size k).trans_eq hSame.symm))
        rw [owner?_moveLookahead hFix hSize, hWhole]
        unfold ownerOfMoved
        rcases hNew with rfl | hLater
        · simp [hApart]
        · rcases Nat.exists_eq_add_of_le hLater with ⟨k, rfl⟩
          have hSmall : k < 4 := Nat.lt_of_add_lt_add_left hInside
          have hApart' : ∀ k, size + k ≠ head :=
            fun k => (hApart k).symm
          interval_cases k <;> simp [hApart']
  | production p =>
      rcases hHolds with ⟨q, hAt, hBody⟩
      rw [productions_moveLookahead] at hAt
      have hMem := Grammar.mem_bodies
        (Array.mem_of_getElem? hAt) hBody
      refine hOld e _ (hSize ▸ hArranged.inside e hMem) ?_
        ⟨q, hAt, hBody⟩
      rintro rfl
      exact hArranged.owned.roots e hMem id hHead

end Moved

end LookaheadFix

theorem Grammar.SameRules.attributed
    {g g' : Grammar}
    (hSame : g.SameRules g')
    (hAttributed : g.Attributed) :
    g'.Attributed := by
  intro e o hHolds
  have hOwner : g'.owner? e = g.owner? e := by
    unfold Grammar.owner? Grammar.node
    rw [hSame.expansions]
  rw [Grammar.holds_congr hSame.productions
    (Grammar.children_congr hSame.form)] at hHolds
  rw [hOwner]
  exact hAttributed e o hHolds

/-
  In a grammar that was analyzed, the place of an expansion is
  the owner that it has recorded, if none stands in two places.
-/
theorem attributed_analyze
    {b : Builder}
    (hMade : Made b)
    (hOwned : b.grammar.SinglyOwned)
    {s₀ : Session}
    {g : Grammar}
    {s : Session}
    (hPasses : analyze b.grammar s₀ = (g, s, .ok ())) :
    g.Attributed := by
  have hStart : b.grammar.Arranged ∧ b.grammar.Attributed :=
    ⟨hMade.arranged hOwned,
      hMade.recorded.attributed hOwned.owned⟩
  rw [← (analyze_eq_ok hPasses).1]
  apply (Analysis.sameRules_resolve b.grammar s₀).attributed
  exact (LookaheadFix.run_induction
    (P := fun g => g.Arranged ∧ g.Attributed)
    (fun hNeeds hBoth =>
      have hFix := LookaheadFix.fixable_of_needsFix? hNeeds
      ⟨LookaheadFix.arranged_moveLookahead hFix hBoth.1,
        LookaheadFix.attributed_moveLookahead hFix hBoth.1
          hBoth.2⟩)
    hStart (Analysis.warnLookahead s₀)).2

end Descent
