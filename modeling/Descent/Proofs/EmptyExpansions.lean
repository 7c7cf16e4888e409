import Descent.Parser.First
import Descent.Proofs.Derivation
import Descent.Proofs.Parts

/-
  Expansions that match the empty sequence of tokens.

  Flags of productions are raised in passes.  Every pass but
  the last raises one, so the last pass comes before the bound
  on their number is met.  A flag that has been raised stands
  for a derivation of nothing, and after the last pass every
  such derivation has its flags.  So an expansion is taken for
  empty exactly if it vanishes in a leftmost derivation.

  Main declarations:
    * `Session.KnowsNames`
    * `Nullable.nullable_eq`
    * `Nullable.raiseFlags_spec`
    * `Nullable.nullable_iff_vanishes`
    * `Session.Flagged`
    * `flagged_analyze`
-/

------------------------------------------------------------
-- Productions by name
------------------------------------------------------------

namespace Descent

/- The table of productions has every production once. -/
def Session.KnowsNames
    (s : Session)
    (g : Grammar) : Prop :=
  ∀ name id, s.production? name = some id ↔
    ∃ p, g.productions[id]? = some p ∧ p.name = name

namespace References

/- A production that is entered without error has a new name. -/
theorem production?_enterProduction
    {s : Session}
    {p : Production}
    {i : ProdId}
    (hClean : (enterProduction s (p, i)).Clean)
    (name : String)
    (id : ProdId) :
    (enterProduction s (p, i)).production? name = some id ↔
      s.production? name = some id ∨
        name = p.name ∧ id = i := by
  unfold enterProduction at hClean ⊢
  dsimp only at hClean ⊢
  split at hClean
  · exact absurd hClean (Session.not_clean_error _ _ _)
  · next hNew =>
      rw [if_neg hNew]
      unfold Session.production? Assoc.insert
      rw [Assoc.get?_alter]
      unfold Assoc.contains at hNew
      rw [Bool.not_eq_true, Option.isSome_eq_false_iff,
        Option.isNone_iff_eq_none] at hNew
      split
      · next hName =>
          rw [hName, hNew]
          simp [eq_comm]
      · next hName => simp [hName]

/- Productions are entered without error. -/
theorem production?_foldl_enterProduction
    (entries : List (Production × ProdId))
    {s : Session}
    (hClean : (entries.foldl enterProduction s).Clean)
    (name : String)
    (id : ProdId) :
    (entries.foldl enterProduction s).production? name =
        some id ↔
      s.production? name = some id ∨
        ∃ p, (p, id) ∈ entries ∧ p.name = name := by
  induction entries generalizing s with
  | nil => simp
  | cons entry entries ih =>
      rcases entry with ⟨p, i⟩
      rw [List.foldl_cons] at hClean ⊢
      have hRest : Session.EntersNames (enterProduction s (p, i))
          (entries.foldl enterProduction
            (enterProduction s (p, i))) :=
        Session.Alters.foldl entersNames_enterProduction _ _
      rw [ih hClean,
        production?_enterProduction (hRest.clean hClean)]
      constructor
      · rintro ((hOld | ⟨rfl, rfl⟩) | ⟨p', hMem, hName⟩)
        · exact .inl hOld
        · exact .inr ⟨p, List.mem_cons_self, rfl⟩
        · exact .inr ⟨p', List.mem_cons_of_mem _ hMem, hName⟩
      · rintro (hOld | ⟨p', hMem, hName⟩)
        · exact .inl (.inl hOld)
        · rcases List.mem_cons.mp hMem with hHere | hMem
          · cases hHere
            exact .inl (.inr ⟨hName.symm, rfl⟩)
          · exact .inr ⟨p', hMem, hName⟩

theorem knowsNames_enterProductions
    {g : Grammar}
    {s : Session}
    (hTable : s.productionTable = [])
    (hClean : (enterProductions g s).Clean) :
    (enterProductions g s).KnowsNames g := by
  intro name id
  have hAll := production?_foldl_enterProduction
    g.productions.toList.zipIdx hClean name id
  have hNone : s.production? name = none := by
    unfold Session.production?
    rw [hTable]
    rfl
  refine hAll.trans ?_
  change s.production? name = some id ∨ _ ↔ _
  rw [hNone]
  simp only [reduceCtorEq, false_or,
    List.mem_zipIdx_iff_getElem?, Array.getElem?_toList]

end References

theorem Grammar.production_eq
    (g : Grammar)
    {id : ProdId}
    {p : Production}
    (hAt : g.productions[id]? = some p) :
    g.production id = p := by
  unfold Grammar.production
  rw [Array.getD_eq_getD_getElem?, hAt]
  rfl

/- The body of a production is found under its name. -/
theorem bodyOf?_eq_some_iff
    {g : Grammar}
    {s : Session}
    (hNames : s.KnowsNames g)
    (name : String)
    (body : ExpId) :
    bodyOf? g s name = some body ↔ g.Defines name body := by
  unfold bodyOf? productionNamed?
  constructor
  · intro hBody
    rcases Option.bind_eq_some_iff.mp hBody with
      ⟨p, hNamed, hExpansion⟩
    rcases Option.map_eq_some_iff.mp hNamed with ⟨id, hId, rfl⟩
    rcases (hNames name id).mp hId with ⟨p, hAt, hName⟩
    rw [g.production_eq hAt] at hExpansion
    exact ⟨p, Array.mem_of_getElem? hAt, hName, hExpansion⟩
  · rintro ⟨p, hMem, hName, hExpansion⟩
    rcases Array.mem_iff_getElem?.mp hMem with ⟨id, hAt⟩
    rw [(hNames name id).mpr ⟨p, hAt, hName⟩, Option.map_some,
      Option.bind_some, g.production_eq hAt]
    exact hExpansion

------------------------------------------------------------
-- Depth
------------------------------------------------------------

namespace Nullable

/- Whether an expansion is empty, as to its parts. -/
def emptyByParts
    (flag : String → Bool)
    (empty : ExpId → Bool) : Expansion → Bool
  | .nonterminal name _ _ => flag name
  | .action _ => true
  | .lookahead _ => true
  | .terminal _ _ _ => false
  | .oneOrMore body => empty body
  | .zeroOrMore _ => true
  | .zeroOrOne _ => true
  | .choice alternatives => alternatives.any empty
  | .sequence units => units.all empty
  | .tryBlock body _ _ => empty body

theorem emptyByParts_congr
    {g : Grammar}
    {empty empty' : ExpId → Bool}
    {id : ExpId}
    (hParts : ∀ part ∈ g.children id,
      empty part = empty' part)
    (flag : String → Bool) :
    emptyByParts flag empty (g.form id) =
      emptyByParts flag empty' (g.form id) := by
  unfold Grammar.children at hParts
  cases hForm : g.form id with
  | sequence units =>
      rw [hForm] at hParts
      change units.all _ = units.all _
      rw [Bool.eq_iff_iff, List.all_eq_true, List.all_eq_true]
      exact forall₂_congr fun u hu => by rw [hParts u hu]
  | choice alternatives =>
      rw [hForm] at hParts
      change alternatives.any _ = alternatives.any _
      rw [Bool.eq_iff_iff, List.any_eq_true, List.any_eq_true]
      exact exists_congr fun u =>
        and_congr_right fun hu => by rw [hParts u hu]
  | oneOrMore body =>
      rw [hForm] at hParts
      exact hParts body List.mem_cons_self
  | tryBlock body catches cleanup =>
      rw [hForm] at hParts
      exact hParts body List.mem_cons_self
  | _ => rfl

/- The depth of the search is never met. -/
theorem nullableTo_eq
    {g : Grammar}
    (hNested : g.Nested)
    (flag : String → Bool)
    {d d' : Nat}
    {id : ExpId}
    (hLeft : rank g.ChildOf g.expansions.size id < d)
    (hRight : rank g.ChildOf g.expansions.size id < d') :
    nullableTo g flag d id = nullableTo g flag d' id := by
  apply eq_of_rank_lt (f := nullableTo g flag) hNested.acyclic
    Grammar.lt_size_of_childOf ?_ hLeft hRight
  intro d d' i hParts
  exact emptyByParts_congr hParts flag

/- What makes an expansion empty, part by part. -/
theorem nullable_eq
    {g : Grammar}
    (hNested : g.Nested)
    (s : Session)
    (id : ExpId) :
    nullable g s id =
      match g.form id with
      | .nonterminal name _ _ => flagOf s name
      | .action _ => true
      | .lookahead _ => true
      | .terminal _ _ _ => false
      | .oneOrMore body => nullable g s body
      | .zeroOrMore _ => true
      | .zeroOrOne _ => true
      | .choice alternatives => alternatives.any (nullable g s)
      | .sequence units => units.all (nullable g s)
      | .tryBlock body _ _ => nullable g s body := by
  have hLess : ∀ i, rank g.ChildOf g.expansions.size i <
      g.expansions.size + 1 :=
    fun i => Nat.lt_succ_of_le (rank_le hNested.acyclic i)
  have hDeeper : nullable g s id = nullableTo g (flagOf s)
      (g.expansions.size + 1 + 1) id :=
    nullableTo_eq hNested (flagOf s) (hLess id)
      (Nat.lt_succ_of_lt (hLess id))
  rw [hDeeper]
  rfl

------------------------------------------------------------
-- Raised flags
------------------------------------------------------------

/- A raised flag stands for a derivation of nothing. -/
def Sound
    (g : Grammar)
    (s : Session) : Prop :=
  ∀ id p, g.productions[id]? = some p →
    s.facts.emptyPossible.getD id false = true →
    ∃ body, p.expansion? = some body ∧ g.Vanishes [body]

/- No flag is left to be raised. -/
def Stable
    (g : Grammar)
    (s : Session) : Prop :=
  ∀ id p body, g.productions[id]? = some p →
    p.expansion? = some body →
    nullable g s body = true →
    s.facts.emptyPossible.getD id true = true

theorem vanishes_of_flagOf
    {g : Grammar}
    {s : Session}
    (hNames : s.KnowsNames g)
    (hSound : Sound g s)
    {name : String}
    (hFlag : flagOf s name = true) :
    ∃ body, g.Defines name body ∧ g.Vanishes [body] := by
  unfold flagOf at hFlag
  split at hFlag
  · next id hId =>
      rcases (hNames name id).mp hId with ⟨p, hAt, hName⟩
      rcases hSound id p hAt hFlag with ⟨body, hBody, hGone⟩
      exact ⟨body, ⟨p, Array.mem_of_getElem? hAt, hName, hBody⟩,
        hGone⟩
  · cases hFlag

/- What is taken for empty vanishes, to any depth. -/
theorem vanishes_of_nullableTo
    {g : Grammar}
    {s : Session}
    (hNames : s.KnowsNames g)
    (hSound : Sound g s)
    (depth : Nat)
    (id : ExpId)
    (hEmpty : nullableTo g (flagOf s) depth id = true) :
    g.Vanishes [id] := by
  induction depth generalizing id with
  | zero => cases hEmpty
  | succ depth ih =>
      rw [Grammar.vanishes_iff_form]
      unfold nullableTo at hEmpty
      cases hForm : g.form id with
      | terminal r result member =>
          rw [hForm] at hEmpty
          cases hEmpty
      | nonterminal name result args =>
          rw [hForm] at hEmpty
          exact vanishes_of_flagOf hNames hSound hEmpty
      | sequence units =>
          rw [hForm] at hEmpty
          apply Grammar.vanishes_iff_forall.mpr
          intro u hu
          exact ih u (List.all_eq_true.mp hEmpty u hu)
      | choice alternatives =>
          rw [hForm] at hEmpty
          rcases List.any_eq_true.mp hEmpty with
            ⟨alt, hAlt, hHere⟩
          exact ⟨alt, hAlt, ih alt hHere⟩
      | oneOrMore body =>
          rw [hForm] at hEmpty
          exact ih body hEmpty
      | tryBlock body catches cleanup =>
          rw [hForm] at hEmpty
          exact ih body hEmpty
      | _ => trivial

/- What vanishes is taken for empty, once flags are stable. -/
theorem nullable_of_vanishes
    {g : Grammar}
    (hNested : g.Nested)
    {s : Session}
    (hNames : s.KnowsNames g)
    (hSize : s.facts.emptyPossible.size = g.productions.size)
    (hStable : Stable g s)
    {es : List ExpId}
    (hGone : g.Vanishes es) :
    ∀ e ∈ es, nullable g s e = true := by
  have hCall : ∀ name body, g.Defines name body →
      nullable g s body = true → flagOf s name = true := by
    rintro name body ⟨p, hMem, hName, hBody⟩ hEmpty
    rcases Array.mem_iff_getElem?.mp hMem with ⟨id, hAt⟩
    have hFlag := hStable id p body hAt hBody hEmpty
    have hInside : id < s.facts.emptyPossible.size := by
      rw [hSize]
      exact (Array.getElem?_eq_some_iff.mp hAt).1
    unfold flagOf
    rw [(hNames name id).mpr ⟨p, hAt, hName⟩]
    dsimp only
    rw [Array.getD_eq_getD_getElem?,
      Array.getElem?_eq_getElem hInside] at hFlag ⊢
    exact hFlag
  -- From the end of the derivation back to its beginning.
  induction hGone using Relation.ReflTransGen.head_induction_on
    with
  | refl => exact List.forall_mem_nil _
  | head hStep _ ih =>
      rcases hStep with @⟨id, parts, rest, hUnfolds⟩
      rw [List.forall_mem_append] at ih
      refine List.forall_mem_cons.mpr ⟨?_, ih.2⟩
      have hParts := ih.1
      rw [nullable_eq hNested]
      unfold Grammar.Unfolds at hUnfolds
      cases hForm : g.form id with
      | terminal r result member =>
          rw [hForm] at hUnfolds
          exact hUnfolds.elim
      | nonterminal name result args =>
          rw [hForm] at hUnfolds
          rcases hUnfolds with ⟨body, hDefines, rfl⟩
          exact hCall name body hDefines
            (hParts body List.mem_cons_self)
      | sequence units =>
          rw [hForm] at hUnfolds
          subst hUnfolds
          exact List.all_eq_true.mpr hParts
      | choice alternatives =>
          rw [hForm] at hUnfolds
          rcases hUnfolds with ⟨alt, hAlt, rfl⟩
          exact List.any_eq_true.mpr
            ⟨alt, hAlt, hParts alt List.mem_cons_self⟩
      | oneOrMore body =>
          rw [hForm] at hUnfolds
          rcases hUnfolds with rfl | rfl
          · exact hParts body List.mem_cons_self
          · exact hParts body List.mem_cons_self
      | tryBlock body catches cleanup =>
          rw [hForm] at hUnfolds
          subst hUnfolds
          exact hParts body List.mem_cons_self
      | zeroOrMore body => rfl
      | zeroOrOne body => rfl
      | action code => rfl
      | lookahead la => rfl

------------------------------------------------------------
-- Passes
------------------------------------------------------------

/- The flag of one production is raised. -/
inductive RaisesOne
    (g : Grammar)
    (s : Session) : Session → Prop where
  | flag
      {id : ProdId}
      {p : Production}
      {body : ExpId}
      (hAt : g.productions[id]? = some p)
      (hBody : p.expansion? = some body)
      (hEmpty : nullable g s body = true)
      (hLow : s.facts.emptyPossible[id]? = some false) :
      RaisesOne g s (raise s id)

/- Flags are raised one after another. -/
abbrev Raises
    (g : Grammar) : Session → Session → Prop :=
  Relation.ReflTransGen (RaisesOne g)

/- The flag of an entry is not to be raised. -/
def Settled
    (g : Grammar)
    (s : Session)
    (entry : Production × ProdId) : Prop :=
  ∀ body, entry.1.expansion? = some body →
    nullable g s body = true →
    s.facts.emptyPossible.getD entry.2 true = true

theorem visitProduction_cases
    {g : Grammar}
    {entry : Production × ProdId}
    (hAt : g.productions[entry.2]? = some entry.1)
    (s : Session)
    (changed : Bool) :
    visitProduction g (s, changed) entry = (s, changed) ∧
        Settled g s entry ∨
      ∃ s', visitProduction g (s, changed) entry = (s', true) ∧
        RaisesOne g s s' := by
  rcases entry with ⟨p, id⟩
  unfold visitProduction Settled
  dsimp only
  cases hBody : p.expansion? with
  | none =>
      left
      exact ⟨rfl, fun body hSome => by cases hSome⟩
  | some body =>
      dsimp only
      split
      · next hRaise =>
          rcases Bool.and_eq_true_iff.mp hRaise with
            ⟨hLow, hEmpty⟩
          right
          refine ⟨_, rfl, .flag hAt hBody hEmpty ?_⟩
          rw [Array.getD_eq_getD_getElem?] at hLow
          cases hFlag : s.facts.emptyPossible[id]? with
          | none => simp [hFlag] at hLow
          | some flag =>
              rw [hFlag, Option.getD_some,
                Bool.not_eq_eq_eq_not] at hLow
              exact congrArg some hLow
      · next hKeep =>
          left
          refine ⟨rfl, ?_⟩
          rintro _ hSame hEmpty
          cases hSame
          simpa [hEmpty] using hKeep

/- Productions are visited one after another. -/
theorem foldl_visitProduction_cases
    {g : Grammar}
    {entries : List (Production × ProdId)}
    (hAt : ∀ entry ∈ entries,
      g.productions[entry.2]? = some entry.1)
    (s : Session)
    (changed : Bool) :
    entries.foldl (visitProduction g) (s, changed) =
          (s, changed) ∧
        (∀ entry ∈ entries, Settled g s entry) ∨
      ∃ s', entries.foldl (visitProduction g) (s, changed) =
          (s', true) ∧
        Relation.TransGen (RaisesOne g) s s' := by
  induction entries generalizing s changed with
  | nil => exact .inl ⟨rfl, List.forall_mem_nil _⟩
  | cons entry entries ih =>
      rw [List.forall_mem_cons] at hAt
      rw [List.foldl_cons]
      rcases visitProduction_cases hAt.1 s changed with
        ⟨hSame, hSettled⟩ | ⟨s₁, hRaised, hOne⟩
      · rw [hSame]
        rcases ih hAt.2 s changed with ⟨hRest, hAll⟩ | hRaised
        · exact .inl ⟨hRest,
            List.forall_mem_cons.mpr ⟨hSettled, hAll⟩⟩
        · exact .inr hRaised
      · rw [hRaised]
        right
        rcases ih hAt.2 s₁ true with
          ⟨hRest, -⟩ | ⟨s₂, hRest, hMore⟩
        · exact ⟨s₁, hRest, .single hOne⟩
        · exact ⟨s₂, hRest, hMore.head hOne⟩

/- A pass raises a flag, or no flag is left to be raised. -/
theorem pass_cases
    (g : Grammar)
    (s : Session) :
    pass g s = (s, false) ∧ Stable g s ∨
      ∃ s', pass g s = (s', true) ∧
        Relation.TransGen (RaisesOne g) s s' := by
  have hAt : ∀ entry ∈ g.productions.toList.zipIdx,
      g.productions[entry.2]? = some entry.1 := by
    intro entry hEntry
    rw [← Array.getElem?_toList]
    exact List.mem_zipIdx_iff_getElem?.mp hEntry
  rcases foldl_visitProduction_cases hAt s false with
    ⟨hSame, hAll⟩ | hRaised
  · refine .inl ⟨hSame, ?_⟩
    intro id p body hProduction hBody hEmpty
    refine hAll (p, id) ?_ body hBody hEmpty
    rw [List.mem_zipIdx_iff_getElem?, Array.getElem?_toList]
    exact hProduction
  · exact .inr hRaised

/- The number of flags that are not raised. -/
def lowFlags
    (s : Session) : Nat :=
  s.facts.emptyPossible.toList.count false

theorem RaisesOne.lowFlags_lt
    {g : Grammar}
    {s s' : Session}
    (hOne : RaisesOne g s s') :
    lowFlags s' < lowFlags s := by
  rcases hOne with @⟨id, p, body, hAt, hBody, hEmpty, hLow⟩
  rw [← Array.getElem?_toList] at hLow
  rcases List.getElem?_eq_some_iff.mp hLow with
    ⟨hInside, hFlag⟩
  have hPositive : 0 < lowFlags s := by
    apply List.count_pos_iff.mpr
    exact List.mem_of_getElem? hLow
  have hCount :
      (s.facts.emptyPossible.toList.set id true).count false =
        s.facts.emptyPossible.toList.count false - 1 := by
    rw [List.count_set hInside, hFlag]
    rfl
  unfold lowFlags at hPositive ⊢
  unfold raise
  rw [Array.toList_setIfInBounds, hCount]
  exact Nat.sub_lt hPositive Nat.one_pos

theorem lowFlags_lt_of_raises
    {g : Grammar}
    {s s' : Session}
    (hRaises : Relation.TransGen (RaisesOne g) s s') :
    lowFlags s' < lowFlags s := by
  induction hRaises with
  | single hOne => exact hOne.lowFlags_lt
  | tail _ hOne ih => exact hOne.lowFlags_lt.trans ih

/- The last pass comes before the bound is met. -/
theorem passes_spec
    {g : Grammar}
    {fuel : Nat}
    {s : Session}
    (hFuel : lowFlags s < fuel)
    (count : Nat) :
    Raises g s (passes g fuel count s).1 ∧
      Stable g (passes g fuel count s).1 := by
  induction fuel generalizing s count with
  | zero => exact absurd hFuel (Nat.not_lt_zero _)
  | succ fuel ih =>
      unfold passes
      rcases pass_cases g s with
        ⟨hSame, hStable⟩ | ⟨s₁, hRaised, hMore⟩
      · rw [hSame]
        exact ⟨.refl, hStable⟩
      · rw [hRaised]
        have hLess := lowFlags_lt_of_raises hMore
        have hRest := ih (s := s₁) (by omega) (count + 1)
        exact ⟨hMore.to_reflTransGen.trans hRest.1, hRest.2⟩

theorem raiseFlags_spec
    {g : Grammar}
    {s : Session}
    (hSize : s.facts.emptyPossible.size = g.productions.size) :
    Raises g s (raiseFlags g s).1 ∧
      Stable g (raiseFlags g s).1 := by
  apply passes_spec
  have hCount : lowFlags s ≤ s.facts.emptyPossible.size :=
    List.count_le_length
  omega

------------------------------------------------------------
-- What raised flags preserve
------------------------------------------------------------

/- Only flags of productions change. -/
theorem Raises.same
    {g : Grammar}
    {s s' : Session}
    (hRaises : Raises g s s') :
    s' = { s with facts := { s.facts with
      emptyPossible := s'.facts.emptyPossible } } ∧
      s'.facts.emptyPossible.size =
        s.facts.emptyPossible.size := by
  induction hRaises with
  | refl => exact ⟨rfl, rfl⟩
  | tail _ hOne ih =>
      rcases hOne with ⟨hAt, hBody, hEmpty, hLow⟩
      unfold raise
      constructor
      · rw [ih.1]
      · rw [← ih.2]
        exact Array.size_setIfInBounds

theorem Raises.knowsNames
    {g : Grammar}
    {s s' : Session}
    (hRaises : Raises g s s')
    (hNames : s.KnowsNames g) :
    s'.KnowsNames g := by
  intro name id
  have hSame : s'.production? name = s.production? name := by
    rw [hRaises.same.1]
    rfl
  rw [hSame]
  exact hNames name id

/- Flags stand for derivations after one more is raised. -/
theorem RaisesOne.sound
    {g : Grammar}
    {s s' : Session}
    (hNames : s.KnowsNames g)
    (hOne : RaisesOne g s s')
    (hSound : Sound g s) :
    Sound g s' := by
  rcases hOne with @⟨raised, p, body, hAt, hBody, hEmpty, hLow⟩
  intro id q hProduction hFlag
  rw [Array.getD_eq_getD_getElem?] at hFlag
  unfold raise at hFlag
  dsimp only at hFlag
  rw [Array.getElem?_setIfInBounds] at hFlag
  split at hFlag
  · next hSame =>
      rw [← hSame, hAt] at hProduction
      cases hProduction
      exact ⟨body, hBody,
        vanishes_of_nullableTo hNames hSound _ body hEmpty⟩
  · rw [← Array.getD_eq_getD_getElem?] at hFlag
    exact hSound id q hProduction hFlag

theorem Raises.sound
    {g : Grammar}
    {s s' : Session}
    (hNames : s.KnowsNames g)
    (hRaises : Raises g s s')
    (hSound : Sound g s) :
    Sound g s' := by
  induction hRaises with
  | refl => exact hSound
  | tail hBefore hOne ih =>
      exact hOne.sound (Raises.knowsNames hBefore hNames) ih

/- Before flags are raised nothing is known. -/
theorem sound_of_low
    {g : Grammar}
    {s : Session}
    {n : Nat}
    (hLow : s.facts.emptyPossible = Array.replicate n false) :
    Sound g s := by
  intro id p _ hFlag
  rw [hLow, Array.getD_eq_getD_getElem?,
    Array.getElem?_replicate] at hFlag
  split at hFlag
  · cases hFlag
  · cases hFlag

/-
  Once flags are raised, an expansion is taken for empty
  exactly if it vanishes.
-/
theorem nullable_iff_vanishes
    {g : Grammar}
    (hNested : g.Nested)
    {s : Session}
    (hNames : s.KnowsNames g)
    (hSize : s.facts.emptyPossible.size = g.productions.size)
    (hSound : Sound g s)
    (hStable : Stable g s)
    (e : ExpId) :
    nullable g s e = true ↔ g.Vanishes [e] := by
  constructor
  · exact vanishes_of_nullableTo hNames hSound _ e
  · intro hGone
    exact nullable_of_vanishes hNested hNames hSize hStable
      hGone e List.mem_cons_self

end Nullable

------------------------------------------------------------
-- Repetitions
------------------------------------------------------------

namespace Nullable

/- No repetition is reported unless its body is empty. -/
theorem foldl_checkRepetition_of_clean
    {g : Grammar}
    (ids : List ExpId)
    {s : Session}
    (hClean : (ids.foldl (checkRepetition g) s).Clean) :
    ids.foldl (checkRepetition g) s = s ∧
      ∀ id ∈ ids, ∀ body image,
        repetition? g id = some (body, image) →
          nullable g s body = false := by
  induction ids generalizing s with
  | nil => exact ⟨rfl, List.forall_mem_nil _⟩
  | cons id ids ih =>
      rw [List.foldl_cons] at hClean ⊢
      have hHere : (checkRepetition g s id).Clean := by
        have hLater : Session.Records (checkRepetition g s id)
            (ids.foldl (checkRepetition g)
              (checkRepetition g s id)) :=
          Session.Alters.foldl (records_checkRepetition g) _ _
        exact hLater.clean hClean
      have hSame : checkRepetition g s id = s ∧
          ∀ body image,
            repetition? g id = some (body, image) →
              nullable g s body = false := by
        unfold checkRepetition at hHere ⊢
        cases hRepeats : repetition? g id with
        | none => exact ⟨rfl, fun _ _ h => by cases h⟩
        | some entry =>
            rcases entry with ⟨body, image⟩
            rw [hRepeats] at hHere
            dsimp only at hHere ⊢
            split at hHere
            · exact absurd hHere
                (Session.not_clean_error _ _ _)
            · next hKept =>
                refine ⟨if_neg hKept, ?_⟩
                rintro _ _ hEntry
                cases hEntry
                exact Bool.eq_false_iff.mpr hKept
      rw [hSame.1] at hClean ⊢
      rcases ih hClean with ⟨hRest, hAll⟩
      exact ⟨hRest, List.forall_mem_cons.mpr ⟨hSame.2, hAll⟩⟩

end Nullable

------------------------------------------------------------
-- Analysis
------------------------------------------------------------

/- Nothing is known of productions but who calls them. -/
def Session.KnowsCallers
    (s : Session)
    (g : Grammar) : Prop :=
  ∃ callers, s.facts =
    { Facts.ofSize g.productions.size with callers := callers }

theorem References.facts_enterProduction
    (s : Session)
    (entry : Production × ProdId) :
    (enterProduction s entry).facts = s.facts := by
  unfold enterProduction
  dsimp only
  split
  · rfl
  · rfl

theorem References.knowsCallers_enterProductions
    (g : Grammar)
    (s : Session) :
    (enterProductions g s).KnowsCallers g := by
  have hFacts := TokenTable.rel_foldl
    (R := fun s s' : Session => s'.facts = s.facts)
    (fun _ => rfl) (fun hFirst hSecond => hSecond.trans hFirst)
    facts_enterProduction g.productions.toList.zipIdx
    { s with facts := Facts.ofSize g.productions.size }
  exact ⟨_, hFacts⟩

theorem References.knowsCallers_resolve
    (g : Grammar)
    {s : Session}
    (hKnows : s.KnowsCallers g) :
    (References.resolve g s).KnowsCallers g := by
  unfold References.resolve
  generalize (g.productions.toList.filterMap
    Production.expansion?).flatMap
      (g.preOrder fun _ => true) = ids
  induction ids generalizing s with
  | nil => exact hKnows
  | cons id ids ih =>
      apply ih
      rcases hKnows with ⟨callers, hFacts⟩
      unfold resolveCall
      split
      · split
        · next target hTarget =>
            refine ⟨callers.modify target (· ++ [id]), ?_⟩
            rw [hFacts]
        · exact ⟨callers, hFacts⟩
      · exact ⟨callers, hFacts⟩

/- What is known of productions once names are resolved. -/
theorem knows_resolve
    {g : Grammar}
    {s : Session}
    (hTable : s.productionTable = [])
    (hClean : (Analysis.resolve g s).2.Clean) :
    (Analysis.resolve g s).2.KnowsNames
        (Analysis.resolve g s).1 ∧
      (Analysis.resolve g s).2.KnowsCallers
        (Analysis.resolve g s).1 := by
  have hTokens := Analysis.alters_resolve g s
  have hChecked : (Analysis.called g s).MeetsEnd
      (Analysis.checked g s).2 :=
    TokenTable.meetsEnd_checkSections _ _
  have hResolved : Session.Learns _ (Analysis.called g s) :=
    References.learns_resolve (Analysis.fixed g s).1 _
  have hRules := (Analysis.sameRules_resolve g s).productions
  have hCalledClean : (Analysis.called g s).Clean :=
    hChecked.clean (hTokens.clean hClean)
  have hFixedTable :
      (Analysis.fixed g s).2.productionTable = [] := by
    have hFixed : s.Records (Analysis.fixed g s).2 :=
      (Analysis.records_warnLookahead s).trans
        (LookaheadFix.records_run g _)
    rw [hFixed.field (·.productionTable) fun _ => rfl]
    exact hTable
  have hSame :
      (Analysis.resolve g s).2.productionTable =
        (References.enterProductions (Analysis.fixed g s).1
          (Analysis.fixed g s).2).productionTable := by
    rw [hTokens.field (·.productionTable) fun _ => rfl,
      hChecked.field (·.productionTable) fun _ => rfl,
      hResolved.field (·.productionTable) fun _ => rfl]
  have hFacts : (Analysis.resolve g s).2.facts =
      (Analysis.called g s).facts := by
    rw [hTokens.field (·.facts) fun _ => rfl,
      hChecked.field (·.facts) fun _ => rfl]
  constructor
  · intro name id
    have hNames := References.knowsNames_enterProductions
      hFixedTable (hResolved.clean hCalledClean) name id
    unfold Session.production? at hNames ⊢
    rw [hSame, hRules]
    exact hNames
  · unfold Session.KnowsCallers
    rw [hFacts, hRules]
    exact References.knowsCallers_resolve _
      (References.knowsCallers_enterProductions _ _)

/-
  A session after flags have been raised: productions are found
  by name, and what is taken for empty vanishes.
-/
structure Session.Flagged
    (s : Session)
    (g : Grammar) : Prop where
  names : s.KnowsNames g
  empty : ∀ e, Nullable.nullable g s e = true ↔
    g.Vanishes [e]

theorem Session.Flagged.congr
    {s s' : Session}
    {g : Grammar}
    (hFlagged : s.Flagged g)
    (hTable : s'.productionTable = s.productionTable)
    (hFlags : s'.facts.emptyPossible =
      s.facts.emptyPossible) :
    s'.Flagged g := by
  have hProduction : s'.production? = s.production? := by
    funext name
    unfold Session.production?
    rw [hTable]
  constructor
  · intro name id
    rw [hProduction]
    exact hFlagged.names name id
  · intro e
    have hFlag : Nullable.flagOf s' = Nullable.flagOf s := by
      funext name
      unfold Nullable.flagOf
      rw [hProduction, hFlags]
    unfold Nullable.nullable
    rw [hFlag]
    exact hFlagged.empty e

/- No walk has looked for cycles yet. -/
structure Session.Unlinked
    (s : Session)
    (g : Grammar) : Prop where
  links : s.facts.leftExpansions =
    Array.replicate g.productions.size []
  statuses : s.facts.walkStatus =
    Array.replicate g.productions.size .unvisited

theorem flagged_raiseFlags
    {g : Grammar}
    (hNested : g.Nested)
    {s : Session}
    (hNames : s.KnowsNames g)
    (hCallers : s.KnowsCallers g) :
    (Nullable.raiseFlags g s).1.Flagged g ∧
      (Nullable.raiseFlags g s).1.Unlinked g ∧
      (Nullable.raiseFlags g s).1.options = s.options := by
  rcases hCallers with ⟨callers, hFacts⟩
  have hLow : s.facts.emptyPossible =
      Array.replicate g.productions.size false := by
    rw [hFacts]
    rfl
  have hSize : s.facts.emptyPossible.size =
      g.productions.size := by
    rw [hLow, Array.size_replicate]
  rcases Nullable.raiseFlags_spec hSize with
    ⟨hRaises, hStable⟩
  have hNames' := Nullable.Raises.knowsNames hRaises hNames
  have hSame := Nullable.Raises.same hRaises
  have hEmpty := Nullable.nullable_iff_vanishes hNested hNames'
    (hSame.2.trans hSize)
    (Nullable.Raises.sound hNames hRaises
      (Nullable.sound_of_low hLow))
    hStable
  refine ⟨⟨hNames', hEmpty⟩, ⟨?_, ?_⟩, ?_⟩
  · rw [hSame.1, hFacts]
    rfl
  · rw [hSame.1, hFacts]
    rfl
  · rw [hSame.1]

/- Flags are raised in every analysis that passes. -/
theorem analyze_flagged
    {b : Builder}
    (hMade : Made b)
    {o : Options}
    {g : Grammar}
    {s : Session}
    (hPasses : analyze b.grammar (.new o) = (g, s, .ok ())) :
    g.Nested ∧ s.Clean ∧
      ∃ flagged : Session,
        flagged.Flagged g ∧ flagged.Unlinked g ∧
          s = if o.sanityCheck then
              Analysis.sanityCheck g flagged
            else flagged := by
  rcases analyze_eq_ok hPasses with
    ⟨rfl, hResolved, ⟨flagged, hFlags, hSession⟩, hClean⟩
  have hNested := nested_resolve hMade.laid.nested (.new o)
  rcases knows_resolve (s := .new o) rfl hResolved with
    ⟨hNames, hCallers⟩
  have hFlagged := flagged_raiseFlags hNested hNames hCallers
  rw [hFlags, Analysis.options_resolve] at hFlagged
  rcases hFlagged with ⟨hFlagged, hUnlinked, hOptions⟩
  rw [hOptions] at hSession
  exact ⟨hNested, hClean, flagged, hFlagged, hUnlinked,
    hSession⟩

theorem flagged_analyze
    {b : Builder}
    (hMade : Made b)
    {o : Options}
    {g : Grammar}
    {s : Session}
    (hPasses : analyze b.grammar (.new o) = (g, s, .ok ())) :
    g.Nested ∧ s.Flagged g := by
  rcases analyze_flagged hMade hPasses with
    ⟨hNested, -, flagged, hFlagged, -, hSession⟩
  refine ⟨hNested, ?_⟩
  rw [hSession]
  split
  · have hChecks := Analysis.followsLinks_sanityCheck g flagged
    exact hFlagged.congr
      (hChecks.field (·.productionTable) fun _ => rfl)
      (hChecks.field (·.facts.emptyPossible) fun _ => rfl)
  · exact hFlagged

end Descent
