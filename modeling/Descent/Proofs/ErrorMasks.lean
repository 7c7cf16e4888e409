import Descent.Proofs.CallTrees
import Descent.Proofs.EntryPoints

/-
  The error masks of a generated parser.

  Every selection by the kind of the next token takes the next
  slot for error messages where errors are reported, and its
  mask is that of its labels.  Methods are followed here with
  the decisions that they come to, in the order in which the
  decisions are made, so that slots and masks can be counted.
  Without error reports there are no slots, but a selection
  that is followed by a test still leaves its mask.

  Main declarations:
    * `Selection` and `Decision.selections`
    * `Decision.hasBit_maskOf`
    * `Records` and `Notes`
    * `Decision.notes_build`
    * `Method.fst_traceTo` and `Method.notes_traceTo`
    * `Parser.selections`
    * `Aligned`
    * `Parser.aligned_generate_iff`
-/

------------------------------------------------------------
-- Selections
------------------------------------------------------------

namespace Descent

/- A selection of generated code by the kind of the next token. -/
structure Selection where
  /- The kinds that have case labels. -/
  labels : List Kind
  /- What the last arm notes for error messages. -/
  slot : Option Nat
  /- A test follows where the next token has no label. -/
  followed : Bool
  deriving Repr, DecidableEq

namespace Decision

/- The decision begins with a test. -/
def isTest : Decision → Bool
  | .test _ _ _ => true
  | _ => false

/- The selections of a decision, from the outside in. -/
def selections : Decision → List Selection
  | .run _ => []
  | .test _ _ otherwise => otherwise.selections
  | .select arms slot otherwise =>
      ⟨arms.flatMap (·.1), slot, otherwise.isTest⟩ ::
        otherwise.selections

------------------------------------------------------------
-- Masks
------------------------------------------------------------

/- A mask of 32-bit words has the bit of a kind. -/
def HasBit
    (mask : List Nat)
    (k : Nat) : Prop :=
  (mask.getD (k / 32) 0).testBit (k % 32) = true

/- A mask has the bits of its kinds if it has words for them. -/
theorem hasBit_maskOf
    {tokenCount : Nat}
    {kinds : List Nat}
    (hBelow : ∀ k ∈ kinds, k < tokenCount)
    (k : Nat) :
    HasBit (maskOf tokenCount kinds) k ↔ k ∈ kinds := by
  have hBits := KindSet.contains_ofList kinds k
  unfold KindSet.contains at hBits
  unfold HasBit maskOf
  by_cases hWord : k / 32 < maskWords tokenCount
  · have hPlace : 32 * (k / 32) + k % 32 = k :=
      Nat.div_add_mod k 32
    have hSmall : k % 32 < 32 := Nat.mod_lt _ (by decide)
    rw [List.getD_eq_getElem?_getD, List.getElem?_map,
      List.getElem?_range hWord, Option.map_some,
      Option.getD_some,
      show 4294967296 = 2 ^ 32 from rfl,
      Nat.testBit_mod_two_pow, Nat.testBit_shiftRight, hPlace]
    simpa [hSmall] using hBits
  · have hNone : k ∉ kinds := by
      intro hMem
      have hLess := hBelow k hMem
      unfold maskWords at hWord
      omega
    rw [List.getD_eq_getElem?_getD, List.getElem?_eq_none]
    · simp [hNone]
    · simpa using Nat.le_of_not_lt hWord

end Decision

/- The masks and the number of slots. -/
def ParserTables.recorded
    (t : ParserTables) : Array (List Nat) × Nat :=
  (t.masks, t.maskCount)

/-
  Some selections are new between two states of the tables:
  each has taken a slot where errors are reported, and those
  with a slot or a test after them have left their masks.
-/
structure Records
    (s : Session)
    (t : ParserTables)
    (sels : List Selection)
    (t' : ParserTables) : Prop where
  below : ∀ sel ∈ sels, ∀ k ∈ sel.labels, k < s.tokenCount
  masks :
    t'.masks.toList = t.masks.toList ++
      (sels.filter fun sel =>
        s.options.errorReporting || sel.followed).map fun sel =>
          Decision.maskOf s.tokenCount sel.labels
  count :
    t'.maskCount = t.maskCount +
      if s.options.errorReporting then sels.length else 0
  slots :
    sels.map (·.slot) =
      (List.range' t.maskCount sels.length).map fun i =>
        if s.options.errorReporting then some i else none

namespace Records

variable {s : Session} {t t' t'' : ParserTables}
variable {sels sels' : List Selection}

/- Nothing is new where masks and slots stay as they are. -/
theorem nil
    (hSame : t'.recorded = t.recorded) :
    Records s t [] t' where
  below := by simp
  masks := by simp [show t'.masks = t.masks from
    congrArg Prod.fst hSame]
  count := by simp [show t'.maskCount = t.maskCount from
    congrArg Prod.snd hSame]
  slots := by simp

theorem trans
    (hFirst : Records s t sels t')
    (hSecond : Records s t' sels' t'') :
    Records s t (sels ++ sels') t'' where
  below sel hMem :=
    (List.mem_append.mp hMem).elim (hFirst.below sel)
      (hSecond.below sel)
  masks := by
    simp [hSecond.masks, hFirst.masks]
  count := by
    rw [hSecond.count, hFirst.count]
    split <;> simp [Nat.add_assoc]
  slots := by
    rw [List.map_append, hFirst.slots, hSecond.slots,
      hFirst.count, List.length_append]
    cases s.options.errorReporting with
    | true => simp [← List.range'_append_1]
    | false =>
        simp [List.map_const', List.replicate_append_replicate]

/- Only the options and the number of kinds matter. -/
theorem congr
    {s' : Session}
    (hRecords : Records s' t sels t')
    (hOptions : s'.options = s.options)
    (hCount : s'.tokenCount = s.tokenCount) :
    Records s t sels t' where
  below := hCount ▸ hRecords.below
  masks := hOptions ▸ hCount ▸ hRecords.masks
  count := hOptions ▸ hRecords.count
  slots := hOptions ▸ hRecords.slots

/- A selection takes its slot. -/
theorem takeSlot
    (hRecords : Records s t sels t')
    {labels : List Kind}
    (hBelow : ∀ k ∈ labels, k < s.tokenCount)
    {followed recordAlways : Bool}
    (hSame : followed = recordAlways) :
    Records s t
      (sels ++ [⟨labels,
        ((Decision.takeSlot s.options s.tokenCount labels
          recordAlways).run t').1, followed⟩])
      ((Decision.takeSlot s.options s.tokenCount labels
        recordAlways).run t').2 := by
  subst hSame
  refine hRecords.trans ?_
  unfold Decision.takeSlot
  dsimp only [modifyGet, MonadStateOf.modifyGet,
    StateT.modifyGet, StateT.run, pure]
  constructor
  · simpa using hBelow
  · cases s.options.errorReporting <;> cases followed <;> simp
  · cases s.options.errorReporting <;> simp
  · cases s.options.errorReporting <;> simp

end Records

------------------------------------------------------------
-- Computations that make selections
------------------------------------------------------------

/- A computation leaves masks and slots as they are. -/
def KeepsMasks
    {α : Type}
    (m : StateM ParserTables α) : Prop :=
  ∀ t, (m.run t).2.recorded = t.recorded

section KeepsMasks

variable {α β : Type}

theorem keepsMasks_pure
    (a : α) :
    KeepsMasks (pure a) :=
  fun _ => rfl

theorem KeepsMasks.bind
    {m : StateM ParserTables α}
    {f : α → StateM ParserTables β}
    (hFirst : KeepsMasks m)
    (hSecond : ∀ a, KeepsMasks (f a)) :
    KeepsMasks (m >>= f) :=
  fun t => (hSecond _ _).trans (hFirst t)

/- Steps that leave something as it is do so in any number. -/
theorem view_foldl
    {σ : Type}
    (view : σ → β)
    {step : σ → α → σ}
    (hStep : ∀ x a, view (step x a) = view x)
    (items : List α)
    (x : σ) :
    view (items.foldl step x) = view x := by
  induction items generalizing x with
  | nil => rfl
  | cons a items ih => exact (ih _).trans (hStep x a)

end KeepsMasks

/-
  A computation adds selections to those so far; what there is
  afterwards can be told from its result.
-/
def Notes
    {α : Type}
    (s : Session)
    (sels : List Selection)
    (m : StateM ParserTables α)
    (after : α → List Selection) : Prop :=
  ∀ t t', Records s t sels t' →
    Records s t (after (m.run t').1) (m.run t').2

section Notes

variable {α β : Type} {s : Session} {sels : List Selection}

theorem notes_pure
    {a : α}
    {after : α → List Selection}
    (hAfter : after a = sels) :
    Notes s sels (pure a) after := by
  intro t t' hRecords
  subst hAfter
  exact hRecords

theorem Notes.bind
    {m : StateM ParserTables α}
    {f : α → StateM ParserTables β}
    {after : α → List Selection}
    {finally' : β → List Selection}
    (hFirst : Notes s sels m after)
    (hSecond : ∀ a, Notes s (after a) (f a) finally') :
    Notes s sels (m >>= f) finally' :=
  fun t t' hRecords =>
    hSecond _ t _ (hFirst t t' hRecords)

/- A computation that leaves masks alone adds nothing. -/
theorem notes_of_keepsMasks
    {m : StateM ParserTables α}
    (hKeeps : KeepsMasks m) :
    Notes s sels m fun _ => sels := by
  intro t t' hRecords
  have hBoth := hRecords.trans
    (Records.nil (s := s) (hKeeps t'))
  rwa [List.append_nil] at hBoth

theorem notes_mapM
    {f : α → StateM ParserTables β}
    {added : β → List Selection}
    (hEach : ∀ sels u,
      Notes s sels (f u) fun b => sels ++ added b)
    (units : List α)
    (sels : List Selection) :
    Notes s sels (units.mapM f) fun bs =>
      sels ++ bs.flatMap added := by
  induction units generalizing sels with
  | nil =>
      rw [List.mapM_nil]
      exact notes_pure (by simp)
  | cons unit units ih =>
      rw [List.mapM_cons]
      exact (hEach sels unit).bind fun b =>
        (ih (sels ++ added b)).bind fun bs =>
          notes_pure (by simp)

end Notes

------------------------------------------------------------
-- Decisions
------------------------------------------------------------

/- A sequence begins with what is asked for its units. -/
theorem below_firstOfUnits
    {g : Grammar}
    {s : Session}
    {first : ExpId → First}
    {bound k : Nat}
    (hFirst : ∀ u, (first u).kinds.contains k = true →
      k < bound)
    {seq : ExpId}
    {previous : Option ExpId}
    {units : List ExpId}
    (hContains : (firstOfUnits g s first seq previous
      units).kinds.contains k = true) :
    k < bound := by
  induction units generalizing previous with
  | nil => simp [firstOfUnits] at hContains
  | cons u us ih =>
      have hUnit : (First.ofUnit g s first seq previous
          u).kinds.contains k = true → k < bound := by
        unfold First.ofUnit
        split
        · split
          · exact hFirst _
          · simp
        · exact hFirst u
      rw [First.firstOfUnits_cons] at hContains
      split at hContains
      · rw [First.contains_union] at hContains
        exact hContains.elim hUnit ih
      · exact hUnit hContains

/- No expansion begins with a kind that was not given out. -/
theorem below_firstTo
    {g : Grammar}
    {s : Session}
    {depth k : Nat}
    {id : ExpId}
    (hContains :
      (firstTo g s depth id).kinds.contains k = true) :
    k < s.tokenCount := by
  induction depth generalizing id with
  | zero => simp [firstTo] at hContains
  | succ depth ih =>
      unfold firstTo at hContains
      cases hForm : g.form id with
      | terminal r result member =>
          rw [hForm] at hContains
          dsimp only at hContains
          split at hContains
          · next hInside =>
              rcases (KindSet.contains_insert _ _ _).mp
                hContains with rfl | hNone
              · exact hInside
              · simp [KindSet.empty, KindSet.contains] at hNone
          · simp at hContains
      | nonterminal name result args =>
          rw [hForm] at hContains
          dsimp only at hContains
          split at hContains
          · exact ih hContains
          · simp at hContains
      | choice alternatives =>
          rw [hForm, First.contains_unions] at hContains
          rcases hContains with ⟨f, hf, hContains⟩
          rcases List.mem_map.mp hf with ⟨alt, -, rfl⟩
          exact ih hContains
      | sequence units =>
          rw [hForm] at hContains
          exact below_firstOfUnits (fun _ => ih) hContains
      | oneOrMore body | zeroOrMore body | zeroOrOne body
      | tryBlock body catches cleanup =>
          rw [hForm] at hContains
          exact ih hContains
      | action code | lookahead la =>
          rw [hForm] at hContains
          simp at hContains

namespace Decision

variable {g : Grammar} {s : Session}

/- All kinds that are claimed have been given out. -/
def Pending.Below
    (s : Session) : Pending → Prop
  | .nothing => True
  | .arms _ claimed => ∀ k ∈ claimed, k < s.tokenCount

theorem Pending.Below.add
    {pending : Pending}
    (hBelow : pending.Below s)
    {kinds : List Kind}
    (hKinds : ∀ k ∈ kinds, k < s.tokenCount)
    (code : Fragment) :
    (pending.add kinds code).Below s := by
  have hOwn : ∀ claimed : List Kind,
      (∀ k ∈ claimed, k < s.tokenCount) →
      ∀ k ∈ claimed ++ kinds.filter fun k =>
        !claimed.contains k, k < s.tokenCount := by
    intro claimed hClaimed k hMem
    rcases List.mem_append.mp hMem with hOld | hNew
    · exact hClaimed k hOld
    · exact hKinds k (List.mem_filter.mp hNew).1
  cases pending with
  | nothing => exact hOwn [] (by simp)
  | arms done claimed => exact hOwn claimed hBelow

/-
  A selection is closed: it takes its slot before whatever is
  decided after it, and what follows is a test exactly if its
  mask is recorded in any case.
-/
theorem notes_close
    {pending : Pending}
    (hSound : pending.Sound)
    (hBelow : pending.Below s)
    {recordAlways : Bool}
    {rest : StateM ParserTables Decision}
    (hTest : ∀ t, (rest.run t).1.isTest = recordAlways)
    (hRest : ∀ sels,
      Notes s sels rest fun d => sels ++ d.selections)
    (sels : List Selection) :
    Notes s sels (close s pending recordAlways rest) fun d =>
      sels ++ d.selections := by
  cases pending with
  | nothing => exact hRest sels
  | arms done claimed =>
      intro t t' hRecords
      have hSlot := hRecords.takeSlot hBelow
        (hTest ((takeSlot s.options s.tokenCount claimed
          recordAlways).run t').2)
      have hNext := hRest _ t _ hSlot
      simp only [List.append_assoc, List.singleton_append]
        at hNext
      rcases hSound with ⟨rfl, -⟩
      exact hNext

theorem notes_takeEntry
    (c : Condition)
    (sels : List Selection) :
    Notes s sels (takeEntry c) fun _ => sels :=
  notes_of_keepsMasks fun _ => rfl

theorem notes_buildFrom
    (lastResort : Fragment)
    {pending : Pending}
    (hSound : pending.Sound)
    (hBelow : pending.Below s)
    (alternatives : List (Condition × Fragment))
    (sels : List Selection) :
    Notes s sels
      (buildFrom g s lastResort pending alternatives)
      fun d => sels ++ d.selections := by
  induction alternatives generalizing pending sels with
  | nil =>
      unfold buildFrom
      apply notes_close hSound hBelow fun _ => rfl
      exact fun sels => notes_pure (List.append_nil sels)
  | cons alternative rest ih =>
      rcases alternative with ⟨c, code⟩
      unfold buildFrom
      rcases c.cases_strategy g s with
        ⟨-, hStrategy⟩ | ⟨-, -, hStrategy⟩ | ⟨-, -, hStrategy⟩
      · rw [hStrategy]
        cases c.guard with
        | none =>
            apply notes_close hSound hBelow fun _ => rfl
            exact fun sels => notes_pure (List.append_nil sels)
        | some guard =>
            apply notes_close hSound hBelow fun _ => rfl
            exact fun sels =>
              (@ih .nothing trivial trivial sels).bind
                fun _ => notes_pure rfl
      · rw [hStrategy]
        have hNodup :
            (firstOf g s c.target).kinds.kinds.Nodup :=
          (KindSet.pairwise_kinds _).imp Nat.ne_of_lt
        have hKinds :
            ∀ k ∈ (firstOf g s c.target).kinds.kinds,
              k < s.tokenCount :=
          fun k hMem =>
            below_firstTo ((KindSet.mem_kinds _ _).mp hMem)
        exact ih (hSound.add hNodup code)
          (hBelow.add hKinds code) sels
      · rw [hStrategy]
        apply notes_close hSound hBelow fun _ => rfl
        exact fun sels => (notes_takeEntry c sels).bind fun _ =>
          (@ih .nothing trivial trivial sels).bind
            fun _ => notes_pure rfl

/- A decision leaves what its selections come to. -/
theorem notes_build
    (alternatives : List (Condition × Fragment))
    (lastResort : Fragment)
    (sels : List Selection) :
    Notes s sels (build g s alternatives lastResort)
      fun d => sels ++ d.selections :=
  @notes_buildFrom g s lastResort .nothing trivial trivial
    alternatives sels

/-
  Without error reports a selection before a test leaves its
  mask, but takes no slot.
-/
example :
    (fun r : Grammar × Session × Except Failure Unit =>
      (fun t : ParserTables => (r.2.2, t.masks, t.maskCount))
        ((build r.1 r.2.1 (assortedAlternatives r.1 r.2.1)
          []).run {}).2)
      (analyze assorted { options := {
        sanityCheck := false, errorReporting := false } }) =
    (.ok (), #[[2]], 0) := by
  cbv

end Decision

------------------------------------------------------------
-- Methods
------------------------------------------------------------

namespace Method

open Fragment (ofText indent dedent raw)

/-
  The code of an expansion, to a given depth, with the
  decisions in it in the order in which they are made.
-/
def traceTo
    (g : Grammar)
    (s : Session) :
    Nat → ExpId →
      StateM ParserTables (Fragment × List Decision)
  | 0, _ => return ([], [])
  | depth + 1, id =>
      let o := s.options
      match g.form id with
      | .choice alternatives => do
          let parts ← alternatives.mapM (traceTo g s depth)
          let conditions :=
            alternatives.map (conditionOfSequence g s)
          let d ← Decision.build g s
            (conditions.zip (parts.map (·.1))) (noAlternative o)
          return (d.render s, parts.flatMap (·.2) ++ [d])
      | .sequence units => do
          let units := units.drop 1
          let parts ← units.mapM (traceTo g s depth)
          let code :=
            (units.zip (parts.map (·.1))).zipIdx.flatMap
              fun ((unit, code), i) =>
                unitCode g o id unit (i + 1 == units.length)
                  code
          return (code, parts.flatMap (·.2))
      | .oneOrMore body => do
          let label ← takeLabel
          let (code, inner) ← traceTo g s depth body
          let d ← Decision.build g s
            [(conditionOfSequence g s body, ofText "\n;")]
            (leaveLoop o label)
          return (loopCode o label code (d.render s) [],
            inner ++ [d])
      | .zeroOrMore body => do
          let label ← takeLabel
          let d ← Decision.build g s
            [(conditionOfSequence g s body, ofText "\n;")]
            (leaveLoop o label)
          let (code, inner) ← traceTo g s depth body
          return (loopCode o label [] (d.render s) code,
            d :: inner)
      | .zeroOrOne body => do
          let (code, inner) ← traceTo g s depth body
          let d ← Decision.build g s
            [(conditionOfSequence g s body, code)]
            (ofText "\n;")
          return (d.render s, inner ++ [d])
      | .tryBlock body catches cleanup => do
          let (code, inner) ← traceTo g s depth body
          return (tryCode code catches cleanup, inner)
      | .terminal _ _ _ | .nonterminal _ _ _ | .action _
      | .lookahead _ => do
          return (← bodyTo g s (depth + 1) id, [])

/- The code of an expansion with the decisions in it. -/
def trace
    (g : Grammar)
    (s : Session)
    (id : ExpId) :
    StateM ParserTables (Fragment × List Decision) :=
  traceTo g s (g.expansions.size + 1) id

theorem map_mapM
    {α β γ : Type}
    (f : α → StateM ParserTables (β × γ))
    (units : List α) :
    List.map (·.1) <$> units.mapM f =
      units.mapM fun u => (·.1) <$> f u := by
  induction units with
  | nil => simp
  | cons u units ih => simp [← ih]

variable {g : Grammar} {s : Session}

/- The code is the same if its decisions are followed. -/
theorem fst_traceTo
    (depth : Nat)
    (id : ExpId) :
    (·.1) <$> traceTo g s depth id = bodyTo g s depth id := by
  induction depth generalizing id with
  | zero => simp [traceTo, bodyTo]
  | succ depth ih =>
      have hUnits : ∀ units : List ExpId,
          List.map (·.1) <$> units.mapM (traceTo g s depth) =
            units.mapM (bodyTo g s depth) := by
        intro units
        rw [map_mapM]
        exact congrArg units.mapM (funext ih)
      unfold traceTo
      cases hForm : g.form id with
      | choice alternatives =>
          unfold bodyTo
          simp [hForm, ← hUnits]
      | sequence units =>
          unfold bodyTo
          simp [hForm, ← hUnits]
      | oneOrMore body | zeroOrMore body | zeroOrOne body
      | tryBlock body catches cleanup =>
          unfold bodyTo
          simp [hForm, ← ih]
      | terminal r result member | nonterminal name result args
      | action code | lookahead la =>
          simp

/- A method leaves what the selections in it come to. -/
theorem notes_traceTo
    (depth : Nat)
    (id : ExpId)
    (sels : List Selection) :
    Notes s sels (traceTo g s depth id) fun p =>
      sels ++ p.2.flatMap Decision.selections := by
  induction depth generalizing id sels with
  | zero => exact notes_pure (by simp)
  | succ depth ih =>
      have hUnits : ∀ (units : List ExpId) sels,
          Notes s sels (units.mapM (traceTo g s depth))
            fun parts => sels ++
              parts.flatMap (·.2.flatMap Decision.selections) :=
        notes_mapM fun sels u => ih u sels
      have hLabel : ∀ sels, Notes s sels takeLabel
          fun _ => sels :=
        fun _ => notes_of_keepsMasks fun _ => rfl
      unfold traceTo
      cases hForm : g.form id with
      | choice alternatives =>
          exact (hUnits alternatives sels).bind fun parts =>
            (Decision.notes_build _ _ _).bind fun d =>
              notes_pure (by simp [List.flatMap_assoc])
      | sequence units =>
          exact (hUnits (units.drop 1) sels).bind fun parts =>
            notes_pure (by simp [List.flatMap_assoc])
      | oneOrMore body =>
          exact (hLabel sels).bind fun label =>
            (ih body sels).bind fun part =>
              (Decision.notes_build _ _ _).bind fun d =>
                notes_pure (by simp)
      | zeroOrMore body =>
          exact (hLabel sels).bind fun label =>
            (Decision.notes_build _ _ _).bind fun d =>
              (ih body _).bind fun part =>
                notes_pure (by simp)
      | zeroOrOne body =>
          exact (ih body sels).bind fun part =>
            (Decision.notes_build _ _ _).bind fun d =>
              notes_pure (by simp)
      | tryBlock body catches cleanup =>
          exact (ih body sels).bind fun part => notes_pure rfl
      | terminal r result member | nonterminal name result args
      | action code | lookahead la =>
          unfold bodyTo
          rw [hForm]
          exact notes_pure (by simp)

end Method

------------------------------------------------------------
-- Parsers
------------------------------------------------------------

namespace Parser

/- The decisions in the method of a production. -/
def decisionsOf
    (g : Grammar)
    (s : Session)
    (p : Production) : List Decision :=
  match p.body with
  | .rules id _ => ((Method.trace g s id).run s.parser).1.2
  | .code _ _ => []

/- The decisions in the methods of productions, in order. -/
def decisionsFrom
    (g : Grammar) : List Production → Session → List Decision
  | [], _ => []
  | p :: productions, s =>
      decisionsOf g s p ++
        decisionsFrom g productions (afterMethod g s p)

/- The selections in all methods of a parser, in order. -/
def selections
    (g : Grammar)
    (s : Session) : List Selection :=
  (decisionsFrom g g.productions.toList
    { s with parser := {} }).flatMap Decision.selections

theorem records_afterMethod
    (g : Grammar)
    (s : Session)
    (p : Production) :
    Records s s.parser
        ((decisionsOf g s p).flatMap Decision.selections)
        (afterMethod g s p).parser ∧
      (afterMethod g s p).options = s.options ∧
      (afterMethod g s p).tokenCount = s.tokenCount := by
  unfold afterMethod decisionsOf
  cases p.body with
  | rules id declarations =>
      have hNotes := Method.notes_traceTo (g := g) (s := s)
        (g.expansions.size + 1) id [] s.parser s.parser
          (Records.nil rfl)
      refine ⟨?_, rfl, rfl⟩
      dsimp only
      unfold Method.body
      rw [← Method.fst_traceTo]
      exact hNotes
  | code language text =>
      cases language with
      | cpp => exact ⟨.nil rfl, rfl, rfl⟩
      | java =>
          dsimp only
          split
          · exact ⟨.nil rfl, rfl, rfl⟩
          · exact ⟨.nil rfl, rfl, rfl⟩

theorem records_foldl_afterMethod
    (g : Grammar)
    (productions : List Production)
    (s : Session) :
    Records s s.parser
      ((decisionsFrom g productions s).flatMap
        Decision.selections)
      (productions.foldl (afterMethod g) s).parser := by
  induction productions generalizing s with
  | nil => exact .nil rfl
  | cons p productions ih =>
      rcases records_afterMethod g s p with
        ⟨hHere, hOptions, hCount⟩
      have hRest := (ih (afterMethod g s p)).congr
        hOptions hCount
      rw [decisionsFrom, List.flatMap_append]
      exact hHere.trans hRest

end Parser

------------------------------------------------------------
-- Speculation
------------------------------------------------------------

namespace Speculation

variable {g : Grammar} {s : Session}

theorem keepsMasks_remembered
    (id : ExpId) :
    KeepsMasks (MinSize.remembered g s id) := by
  intro t
  by_cases hIdle : t.measuring = []
  · rw [MinSize.run_remembered_idle hIdle]
    split
    · rfl
    · rfl
  · rw [MinSize.run_remembered_busy hIdle]

theorem keepsMasks_whileBudget
    {α : Type}
    {visit : ExpId → Nat → StateM ParserTables α}
    (hVisit : ∀ u count, KeepsMasks (visit u count))
    (count : Nat)
    (units : List ExpId) :
    KeepsMasks (whileBudget g s visit count units) := by
  induction units generalizing count with
  | nil => exact keepsMasks_pure []
  | cons u us ih =>
      unfold whileBudget
      apply (hVisit u count).bind
      intro here
      apply (keepsMasks_remembered u).bind
      intro size
      dsimp only
      split
      · exact keepsMasks_pure _
      · exact (ih _).bind fun _ => keepsMasks_pure _

theorem recorded_enter
    (r : ScanRequest)
    (t : ParserTables) :
    (enter r t).recorded = t.recorded := by
  unfold enter
  split
  · split
    · rfl
    · rfl
  · rfl

theorem recorded_request
    (id : ExpId)
    (count : Nat)
    (t : ParserTables) :
    (request g s id count t).recorded = t.recorded := by
  unfold request
  split
  · exact recorded_enter _ _
  · split
    · rfl
    · exact recorded_enter _ _

theorem keepsMasks_requestPartsTo
    (depth : Nat)
    (id : ExpId)
    (count : Nat) :
    KeepsMasks (requestPartsTo g s depth id count) := by
  induction depth generalizing id count with
  | zero => exact keepsMasks_pure ()
  | succ depth ih =>
      unfold requestPartsTo
      cases g.form id with
      | nonterminal name result args =>
          dsimp only
          cases bodyOf? g s name with
          | some body => exact recorded_request body count
          | none => exact keepsMasks_pure ()
      | choice alternatives =>
          exact view_foldl ParserTables.recorded
            (fun t alt => recorded_request alt count t)
            alternatives
      | sequence units =>
          exact (keepsMasks_whileBudget ih count _).bind
            fun _ => keepsMasks_pure ()
      | tryBlock body catches cleanup => exact ih body count
      | oneOrMore body | zeroOrMore body | zeroOrOne body =>
          exact recorded_request body count
      | _ => exact keepsMasks_pure ()

theorem recorded_requestFrom
    (fuel index : Nat)
    (t : ParserTables) :
    (requestFrom g s fuel index t).recorded = t.recorded := by
  induction fuel generalizing index t with
  | zero => rfl
  | succ fuel ih =>
      unfold requestFrom
      split
      · rfl
      · exact (ih _ _).trans (keepsMasks_requestPartsTo _ _ _ t)

theorem keepsMasks_stepsTo
    (depth : Nat)
    (id : ExpId)
    (count : Nat) :
    KeepsMasks (stepsTo g s depth id count) := by
  induction depth generalizing id count with
  | zero => exact keepsMasks_pure []
  | succ depth ih =>
      intro t
      rw [run_stepsTo_succ]
      split
      · rfl
      · cases g.form id with
        | nonterminal name result args =>
            dsimp only
            cases bodyOf? g s name with
            | some body => rfl
            | none => rfl
        | sequence units => exact keepsMasks_whileBudget ih count _ t
        | tryBlock body catches cleanup => exact ih body count t
        | _ => rfl

/- No routine has anything to do with masks. -/
theorem recorded_writeAll
    (out : Output)
    (t : ParserTables) :
    (writeAll g s out t).2.recorded = t.recorded := by
  have hRoutine : ∀ (acc : Output × ParserTables) r,
      (writeRoutine g s acc r).2.recorded =
        acc.2.recorded := by
    intro acc r
    have hSteps := keepsMasks_stepsTo (g := g) (s := s)
      (g.expansions.size + 1) r.exp r.count acc.2
    unfold writeRoutine
    dsimp only
    split
    · rfl
    · exact hSteps
  have hEntry : ∀ (acc : Output × ParserTables) r,
      (writeEntry s.options acc r).2.recorded =
        acc.2.recorded :=
    fun _ _ => rfl
  unfold writeAll
  dsimp only
  rw [view_foldl (fun acc : Output × ParserTables =>
    acc.2.recorded) hRoutine]
  exact (recorded_requestFrom _ _ _).trans
    (view_foldl (fun acc : Output × ParserTables =>
      acc.2.recorded) hEntry t.entries.toList (out, t))

end Speculation

------------------------------------------------------------
-- Slots and masks
------------------------------------------------------------

/-
  Slots and masks agree: there are as many masks as slots,
  every slot belongs to one selection, and the mask of a slot
  has the bits of the labels of its selection.
-/
structure Aligned
    (sels : List Selection)
    (t : ParserTables) : Prop where
  sizes : t.masks.size = t.maskCount
  slots : sels.filterMap (·.slot) = List.range t.maskCount
  masks : ∀ sel ∈ sels, ∀ i ∈ sel.slot,
    ∃ mask, t.masks[i]? = some mask ∧
      ∀ k, Decision.HasBit mask k ↔ k ∈ sel.labels

section Alignment

variable {s : Session} {sels : List Selection}
variable {t : ParserTables}

/- Where errors are reported, slots are taken in order. -/
theorem Records.slot_eq
    (hRecords : Records s {} sels t)
    (hReports : s.options.errorReporting = true)
    {i : Nat}
    {sel : Selection}
    (hAt : sels[i]? = some sel) :
    sel.slot = some i := by
  have hLess := (List.getElem?_eq_some_iff.mp hAt).1
  have hBoth : (sels.map (·.slot))[i]? = _ :=
    congrArg (fun slots : List (Option Nat) => slots[i]?)
      hRecords.slots
  rw [List.getElem?_map, hAt] at hBoth
  simpa [hReports, hLess] using hBoth

/- Where errors are reported, every selection has its mask. -/
theorem Records.aligned
    (hRecords : Records s {} sels t)
    (hReports : s.options.errorReporting = true) :
    Aligned sels t := by
  have hCount : t.maskCount = sels.length := by
    simpa [hReports] using hRecords.count
  have hMasks : t.masks.toList = sels.map fun sel =>
      Decision.maskOf s.tokenCount sel.labels := by
    simpa [hReports] using hRecords.masks
  have hSlots : sels.map (·.slot) =
      (List.range sels.length).map some := by
    simpa [hReports, List.range_eq_range'] using hRecords.slots
  constructor
  · rw [← Array.length_toList, hMasks, hCount, List.length_map]
  · have hAll := congrArg (List.filterMap id) hSlots
    simpa [hCount] using hAll
  · intro sel hMem i hSlot
    rcases List.mem_iff_getElem?.mp hMem with ⟨j, hAt⟩
    cases hSlot.symm.trans (hRecords.slot_eq hReports hAt)
    refine ⟨_, ?_, Decision.hasBit_maskOf
      (hRecords.below sel hMem)⟩
    rw [← Array.getElem?_toList, hMasks, List.getElem?_map, hAt]
    rfl

/-
  Where errors are not reported there are no slots, but every
  selection that is followed by a test leaves its mask.
-/
theorem Records.silent
    (hRecords : Records s {} sels t)
    (hSilent : s.options.errorReporting = false) :
    t.maskCount = 0 ∧ (∀ sel ∈ sels, sel.slot = none) ∧
      t.masks.toList = (sels.filter (·.followed)).map fun sel =>
        Decision.maskOf s.tokenCount sel.labels := by
  refine ⟨?_, ?_, ?_⟩
  · simpa [hSilent] using hRecords.count
  · intro sel hMem
    have hNone := List.mem_map_of_mem (f := (·.slot)) hMem
    rw [hRecords.slots] at hNone
    simp only [hSilent] at hNone
    simp at hNone
    exact hNone.2
  · simpa [hSilent] using hRecords.masks

theorem Records.aligned_iff
    (hRecords : Records s {} sels t) :
    Aligned sels t ↔ s.options.errorReporting = true ∨
      ∀ sel ∈ sels, sel.followed = false := by
  cases hReports : s.options.errorReporting with
  | true => simpa using hRecords.aligned hReports
  | false =>
      rcases hRecords.silent hReports with
        ⟨hCount, hSlots, hMasks⟩
      have hSizes : t.masks.size = t.maskCount ↔
          ∀ sel ∈ sels, sel.followed = false := by
        rw [← Array.length_toList, hMasks, hCount]
        simp
      constructor
      · exact fun hAligned => .inr (hSizes.mp hAligned.sizes)
      · rintro (hNever | hNone)
        · cases hNever
        · refine ⟨hSizes.mpr hNone, ?_, ?_⟩
          · rw [hCount]
            exact List.filterMap_eq_nil_iff.mpr hSlots
          · intro sel hMem i hSlot
            rw [hSlots sel hMem] at hSlot
            cases hSlot

end Alignment

namespace Parser

theorem records_generate
    (g : Grammar)
    (s : Session)
    (out : Output) :
    Records s {} (selections g s)
      (generate g s out).2.1.parser := by
  have hMethods := (records_foldl_afterMethod g
    g.productions.toList { s with parser := {} }).congr
      (s := s) rfl rfl
  rw [← session_methods g s out] at hMethods
  have hRoutines := Speculation.recorded_writeAll (g := g)
    (s := (methods g s out).2)
    ((methods g s out).1.switch .header)
    (methods g s out).2.parser
  have hBoth := hMethods.trans
    (Records.nil (s := s) hRoutines)
  rw [List.append_nil] at hBoth
  exact hBoth

/-
  Slots and masks of a generated parser agree exactly if errors
  are reported or no selection is followed by a test.  With
  error reports every selection has its slot; without them
  there are no slots, and the masks are those of the
  selections that are followed by a test.
-/
theorem aligned_generate_iff
    (g : Grammar)
    (s : Session)
    (out : Output) :
    (Aligned (selections g s)
        (generate g s out).2.1.parser ↔
      s.options.errorReporting = true ∨
        ∀ sel ∈ selections g s, sel.followed = false) ∧
    (s.options.errorReporting = true →
      ∀ (i : Nat) (sel : Selection),
        (selections g s)[i]? = some sel →
        sel.slot = some i) ∧
    (s.options.errorReporting = false →
      (generate g s out).2.1.parser.maskCount = 0 ∧
      (∀ sel ∈ selections g s, sel.slot = none) ∧
      (generate g s out).2.1.parser.masks.toList =
        ((selections g s).filter (·.followed)).map fun sel =>
          Decision.maskOf s.tokenCount sel.labels) := by
  have hRecords := records_generate g s out
  exact ⟨hRecords.aligned_iff,
    fun hReports _ _ => hRecords.slot_eq hReports,
    hRecords.silent⟩

end Parser

end Descent
