import Descent.Proofs.Emission
import Descent.Proofs.Measuring
import Descent.Proofs.Ownership

/-
  The fewest tokens that an expansion generates.

  Sizes are measured from the top down, and what is already
  being measured counts as endless.  That loses nothing: a
  derivation tree of least height for its number of tokens does
  not hold its own root again.  A size that is found below its
  bound is the length of a text.  The converse fails for a
  choice that looks no further once it has found one token; it
  holds if no alternative of one token comes before one that
  may be empty.

  Main declarations:
    * `Grammar.Costs` and `Grammar.exists_costs_of_generates`
    * `MinSize.attained_below`
    * `Grammar.EmptyFirst`, which `Grammar.filledLater` decides
      in part
    * `MinSize.below_le_of_costs`
    * `MinSize.of_fewest`
-/

------------------------------------------------------------
-- Heads of sequences
------------------------------------------------------------

namespace Descent

theorem Grammar.SameRules.headed
    {g g' : Grammar}
    (hSame : g.SameRules g')
    (hHeaded : g.Headed) :
    g'.Headed := by
  intro seq units hForm
  rw [hSame.form] at hForm
  rcases hHeaded seq units hForm with
    ⟨head, rest, la, hUnits, hHead⟩
  exact ⟨head, rest, la, hUnits, (hSame.form head).trans hHead⟩

/- Analysis leaves a lookahead at the head of every sequence. -/
theorem headed_analyze
    {b : Builder}
    (hMade : Made b)
    {s₀ : Session}
    {g : Grammar}
    {s : Session}
    (hPasses : analyze b.grammar s₀ = (g, s, .ok ())) :
    g.Headed := by
  rw [← (analyze_eq_ok hPasses).1]
  apply (Analysis.sameRules_resolve b.grammar s₀).headed
  exact LookaheadFix.run_induction (P := Grammar.Headed)
    (fun hNeeds => LookaheadFix.headed_moveLookahead
      (LookaheadFix.fixable_of_needsFix? hNeeds))
    hMade.wellFormed.headed (Analysis.warnLookahead s₀)

------------------------------------------------------------
-- Texts and their lengths
------------------------------------------------------------

namespace Grammar

/- Some text of these expansions has so many tokens. -/
def HasText
    (g : Grammar)
    (es : List ExpId)
    (n : Nat) : Prop :=
  ∃ tokens, g.Generates es tokens ∧ tokens.length = n

/-
  Some derivation tree of an expansion, of at most so many
  levels, has so many tokens at its leaves.
-/
def Costs
    (g : Grammar) : Nat → ExpId → Nat → Prop
  | 0, _, _ => False
  | height + 1, id, n =>
      (∃ r result member,
        g.form id = .terminal r result member ∧ n = 1) ∨
      ∃ parts sizes, g.Unfolds id parts ∧
        List.Forall₂ (g.Costs height) parts sizes ∧
        sizes.sum = n

section Texts

variable {g : Grammar} {id : ExpId} {es parts : List ExpId}
variable {n height height' : Nat} {sizes : List Nat}

theorem HasText.unfold
    (hUnfolds : g.Unfolds id parts)
    (hText : g.HasText parts n) :
    g.HasText [id] n := by
  rcases hText with ⟨tokens, hGenerates, hLength⟩
  have hAll : g.Generates (parts ++ []) tokens := by
    rwa [List.append_nil]
  exact ⟨tokens, .unfold hUnfolds hAll, hLength⟩

theorem hasText_nil :
    g.HasText [] 0 :=
  ⟨[], .stop [], rfl⟩

theorem hasText_zero_iff :
    g.HasText es 0 ↔ g.Vanishes es := by
  rw [vanishes_iff_generates]
  constructor
  · rintro ⟨tokens, hGenerates, hLength⟩
    rwa [List.length_eq_zero_iff.mp hLength] at hGenerates
  · exact fun hGenerates => ⟨[], hGenerates, rfl⟩

/- Texts of the parts of a list make a text of the list. -/
theorem hasText_sum
    (hParts : List.Forall₂ (fun e n => g.HasText [e] n) es
      sizes) :
    g.HasText es sizes.sum := by
  induction hParts with
  | nil => exact hasText_nil
  | @cons e n es sizes hHere _ ih =>
      rcases hHere with ⟨us, hFirst, rfl⟩
      rcases ih with ⟨vs, hRest, hLength⟩
      refine ⟨us ++ vs, hFirst.emits_append hRest, ?_⟩
      rw [List.length_append, hLength, List.sum_cons]

theorem Costs.mono
    (hCosts : g.Costs height id n)
    (hLe : height ≤ height') :
    g.Costs height' id n := by
  induction height generalizing height' id n with
  | zero => exact hCosts.elim
  | succ height ih =>
      cases height' with
      | zero => exact absurd hLe (Nat.not_succ_le_zero _)
      | succ height' =>
          refine hCosts.imp_right ?_
          rintro ⟨parts, sizes, hUnfolds, hSizes, hSum⟩
          exact ⟨parts, sizes, hUnfolds,
            hSizes.imp fun _ _ hPart =>
              ih hPart (Nat.le_of_succ_le_succ hLe), hSum⟩

theorem Costs.hasText
    (hCosts : g.Costs height id n) :
    g.HasText [id] n := by
  induction height generalizing id n with
  | zero => exact hCosts.elim
  | succ height ih =>
      rcases hCosts with ⟨r, result, member, hToken, rfl⟩ |
        ⟨parts, sizes, hUnfolds, hSizes, rfl⟩
      · exact ⟨[(g.regex r).kind],
          (generates_terminal hToken).mpr rfl, rfl⟩
      · exact .unfold hUnfolds
          (hasText_sum (hSizes.imp fun _ _ hPart => ih hPart))

/- Of the trees that are as small, some are least in height. -/
theorem Costs.exists_least
    (hCosts : g.Costs height id n) :
    ∃ least < height, ∃ m ≤ n, g.Costs (least + 1) id m ∧
      ∀ m ≤ n, ¬ g.Costs least id m := by
  classical
  have hSome : ∃ height, ∃ m ≤ n, g.Costs height id m :=
    ⟨height, n, le_rfl, hCosts⟩
  have hLe := Nat.find_min' hSome ⟨n, le_rfl, hCosts⟩
  have hLower := fun k => Nat.find_min (m := k) hSome
  rcases Nat.find_spec hSome with ⟨m, hm, hTree⟩
  generalize Nat.find hSome = least at hLe hLower hTree
  cases least with
  | zero => exact hTree.elim
  | succ least =>
      exact ⟨least, hLe, m, hm, hTree, fun m' hm' hOther =>
        hLower least (Nat.lt_succ_self least) ⟨m', hm', hOther⟩⟩

/- Every text has derivation trees for its parts. -/
theorem exists_costs_of_generates
    {tokens : List Kind}
    (hGenerates : g.Generates es tokens) :
    ∃ height sizes,
      List.Forall₂ (g.Costs height) es sizes ∧
        sizes.sum = tokens.length := by
  unfold Generates at hGenerates
  generalize hNone : [] = left at hGenerates
  induction hGenerates with
  | stop es => exact ⟨0, [], hNone ▸ .nil, rfl⟩
  | @unfold id parts rest left tokens hUnfolds _ ih =>
      rcases ih hNone with ⟨height, sizes, hSizes, hSum⟩
      have hParts := List.forall₂_take parts.length hSizes
      have hRest := List.forall₂_drop parts.length hSizes
      rw [List.take_left] at hParts
      rw [List.drop_left] at hRest
      refine ⟨height + 1, (sizes.take parts.length).sum ::
        sizes.drop parts.length, .cons ?_ ?_, ?_⟩
      · exact .inr ⟨parts, _, hUnfolds, hParts, rfl⟩
      · exact hRest.imp fun _ _ h => h.mono (Nat.le_succ _)
      · rw [List.sum_cons, ← List.sum_append,
          List.take_append_drop, hSum]
  | @token id r result member rest left tokens hToken _ ih =>
      rcases ih hNone with ⟨height, sizes, hSizes, hSum⟩
      refine ⟨height + 1, 1 :: sizes, .cons ?_ ?_, ?_⟩
      · exact .inl ⟨r, result, member, hToken, rfl⟩
      · exact hSizes.imp fun _ _ h => h.mono (Nat.le_succ _)
      · rw [List.sum_cons, hSum, List.length_cons, Nat.add_comm]

end Texts

end Grammar

------------------------------------------------------------
-- Sums and choices
------------------------------------------------------------

namespace MinSize

section Sizes

variable {size : ExpId → Nat} {bound sum : Nat}
variable {us : List ExpId}

/- A sum that is endless stays so. -/
theorem sumOf_infinite
    (size : ExpId → Nat)
    (bound : Nat)
    (us : List ExpId) :
    sumOf size bound infinite us = infinite := by
  induction us with
  | nil => rfl
  | cons u us ih =>
      unfold sumOf
      simp only [beq_self_eq_true, Bool.true_or, if_true, ih]

theorem sumOf_le
    (size : ExpId → Nat)
    (bound sum : Nat)
    (us : List ExpId) :
    sumOf size bound sum us ≤ sum + (us.map size).sum := by
  induction us generalizing sum with
  | nil => exact le_rfl
  | cons u us ih =>
      rw [List.map_cons, List.sum_cons]
      unfold sumOf
      dsimp only
      split
      · next hEndless =>
          rw [sumOf_infinite]
          rw [Bool.or_eq_true, beq_iff_eq, beq_iff_eq] at hEndless
          omega
      · split
        · omega
        · exact (ih _).trans (by omega)

theorem sumOf_le_infinite
    (hSum : sum ≤ infinite)
    (us : List ExpId) :
    sumOf size bound sum us ≤ infinite := by
  induction us generalizing sum with
  | nil => exact hSum
  | cons u us ih =>
      unfold sumOf
      dsimp only
      split
      · exact ih le_rfl
      · split
        · exact min_le_right _ _
        · exact ih (min_le_right _ _)

/- A sum below its bound has been added up to its end. -/
theorem sumOf_eq_of_lt
    (hBound : bound ≤ infinite)
    (hLess : sumOf size bound sum us < bound) :
    (∀ u ∈ us, size u < infinite) ∧
      sumOf size bound sum us = sum + (us.map size).sum := by
  induction us generalizing sum with
  | nil => exact ⟨List.forall_mem_nil _, rfl⟩
  | cons u us ih =>
      rw [List.map_cons, List.sum_cons, List.forall_mem_cons]
      unfold sumOf at hLess ⊢
      dsimp only at hLess ⊢
      split at hLess
      · rw [sumOf_infinite] at hLess
        omega
      · next hFinite =>
          rw [if_neg hFinite]
          split at hLess
          · omega
          · next hWithin =>
              rw [if_neg hWithin]
              rcases ih hLess with ⟨hAll, hSum⟩
              by_cases hSmall : sum + size u < infinite
              · rw [min_eq_left hSmall.le] at hSum ⊢
                exact ⟨⟨by omega, hAll⟩, by omega⟩
              · rw [min_eq_right (Nat.not_lt.mp hSmall),
                  sumOf_infinite] at hLess
                omega

variable {measure : ExpId → Nat → Nat} {least n : Nat}
variable {alts : List ExpId}

theorem leastOf_le
    (measure : ExpId → Nat → Nat)
    (least : Nat)
    (alts : List ExpId) :
    leastOf measure least alts ≤ least := by
  induction alts generalizing least with
  | nil => exact le_rfl
  | cons alt alts ih =>
      unfold leastOf
      split
      · exact le_rfl
      · exact (ih _).trans (min_le_left _ _)

/- A least size below the first one is that of an alternative. -/
theorem exists_of_leastOf_lt
    (hLess : leastOf measure least alts < least) :
    ∃ alt ∈ alts, ∃ bound ≤ least,
      measure alt bound = leastOf measure least alts ∧
        measure alt bound < bound := by
  induction alts generalizing least with
  | nil => exact absurd hLess (lt_irrefl least)
  | cons alt alts ih =>
      unfold leastOf at hLess ⊢
      split at hLess
      · exact absurd hLess (lt_irrefl least)
      · next hMore =>
          rw [if_neg hMore]
          have hLe := leastOf_le measure
            (min least (measure alt least)) alts
          by_cases hLater : leastOf measure
              (min least (measure alt least)) alts <
                min least (measure alt least)
          · rcases ih hLater with
              ⟨alt', hAlt, bound, hBound, hSame⟩
            exact ⟨alt', List.mem_cons_of_mem alt hAlt, bound,
              hBound.trans (min_le_left _ _), hSame⟩
          · exact ⟨alt, List.mem_cons_self, least, le_rfl,
              by omega, by omega⟩

/-
  The least size comes down to that of an alternative, if it is
  not one token that ends the search before.
-/
theorem leastOf_le_of_mem
    {before after : List ExpId}
    {alt : ExpId}
    (hLeast : 2 ≤ least)
    (hAlt : ∀ bound ≤ least, 2 ≤ bound →
      measure alt bound ≤ n)
    (hBefore : n = 0 → ∀ b ∈ before, ∀ bound ≤ least,
      2 ≤ bound → measure b bound ≠ 1) :
    leastOf measure least (before ++ alt :: after) ≤ n := by
  induction before generalizing least with
  | nil =>
      rw [List.nil_append]
      unfold leastOf
      rw [if_neg (by omega)]
      exact (leastOf_le _ _ _).trans
        ((min_le_right _ _).trans (hAlt least le_rfl hLeast))
  | cons b before ih =>
      rw [List.cons_append]
      unfold leastOf
      rw [if_neg (by omega)]
      have hLater : n = 0 → ∀ b' ∈ before,
          ∀ bound ≤ min least (measure b least), 2 ≤ bound →
            measure b' bound ≠ 1 :=
        fun hNone b' hb' bound hBound => hBefore hNone b'
          (List.mem_cons_of_mem b hb') bound
          (hBound.trans (min_le_left _ _))
      by_cases hMore : 2 ≤ min least (measure b least)
      · exact ih hMore (fun bound hBound => hAlt bound
          (hBound.trans (min_le_left _ _))) hLater
      · have hLe := leastOf_le measure
          (min least (measure b least)) (before ++ alt :: after)
        by_cases hNone : n = 0
        · have hNot := hBefore hNone b List.mem_cons_self least
            le_rfl hLeast
          omega
        · omega

end Sizes

------------------------------------------------------------
-- Sizes that are found
------------------------------------------------------------

section Expansions

variable {g : Grammar} {s : Session}

/- Sizes below their bounds are the lengths of texts. -/
def Attained
    (g : Grammar)
    (size : ExpId → Nat → Nat) : Prop :=
  ∀ id, ∀ bound ≤ infinite, size id bound < bound →
    g.HasText [id] (size id bound)

/- What holds of all parts holds of the whole. -/
theorem Attained.fromParts
    (hNames : s.KnowsNames g)
    (hHeaded : g.Headed)
    {size : ExpId → Nat → Nat}
    (hSize : Attained g size) :
    Attained g (fromParts g s size) := by
  intro id bound hBound hLess
  have hUnfold : ∀ parts n, g.Unfolds id parts →
      g.HasText parts n → g.HasText [id] n :=
    fun _ _ => Grammar.HasText.unfold
  unfold Grammar.Unfolds at hUnfold
  unfold MinSize.fromParts at hLess ⊢
  cases hForm : g.form id with
  | terminal r result member =>
      exact ⟨[(g.regex r).kind],
        (Grammar.generates_terminal hForm).mpr rfl, rfl⟩
  | nonterminal name result args =>
      rw [hForm] at hLess hUnfold
      dsimp only at hLess hUnfold ⊢
      cases hBody : bodyOf? g s name with
      | none =>
          rw [hBody] at hLess
          exact absurd hLess (Nat.not_lt.mpr hBound)
      | some body =>
          rw [hBody] at hLess
          have hDefines :=
            (bodyOf?_eq_some_iff hNames name body).mp hBody
          exact hUnfold [body] _ ⟨body, hDefines, rfl⟩
            (hSize body infinite le_rfl (hLess.trans_le hBound))
  | sequence units =>
      rw [hForm] at hLess hUnfold
      dsimp only at hLess hUnfold ⊢
      rcases hHeaded id units hForm with
        ⟨head, rest, la, rfl, hHead⟩
      rw [List.drop_one, List.tail_cons] at hLess ⊢
      rcases sumOf_eq_of_lt hBound hLess with ⟨hAll, hSum⟩
      rw [hSum]
      refine hUnfold _ _ rfl ?_
      have hGone : g.HasText [head] 0 := by
        rw [Grammar.hasText_zero_iff, Grammar.vanishes_iff_form,
          hHead]
        trivial
      have hRest : List.Forall₂ (fun u n => g.HasText [u] n) rest
          (rest.map (size · infinite)) := by
        rw [List.forall₂_map_right_iff, List.forall₂_same]
        exact fun u hu => hSize u infinite le_rfl (hAll u hu)
      exact Grammar.hasText_sum (.cons hGone hRest)
  | choice alternatives =>
      rw [hForm] at hLess hUnfold
      dsimp only at hLess hUnfold ⊢
      rcases exists_of_leastOf_lt hLess with
        ⟨alt, hAlt, bound', hBound', hSame, hFound⟩
      rw [← hSame]
      exact hUnfold [alt] _ ⟨alt, hAlt, rfl⟩
        (hSize alt bound' (hBound'.trans hBound) hFound)
  | oneOrMore body =>
      rw [hForm] at hLess hUnfold
      exact hUnfold [body] _ (.inl rfl)
        (hSize body infinite le_rfl (hLess.trans_le hBound))
  | tryBlock body catches cleanup =>
      rw [hForm] at hLess hUnfold
      exact hUnfold [body] _ rfl
        (hSize body infinite le_rfl (hLess.trans_le hBound))
  | zeroOrMore body =>
      rw [hForm] at hUnfold
      exact hUnfold [] _ (.inl rfl) Grammar.hasText_nil
  | zeroOrOne body =>
      rw [hForm] at hUnfold
      exact hUnfold [] _ (.inl rfl) Grammar.hasText_nil
  | action code =>
      rw [hForm] at hUnfold
      exact hUnfold [] _ rfl Grammar.hasText_nil
  | lookahead la =>
      rw [hForm] at hUnfold
      exact hUnfold [] _ rfl Grammar.hasText_nil

theorem attained_below
    (hNames : s.KnowsNames g)
    (hHeaded : g.Headed)
    (depth : Nat)
    (open_ : List ExpId) :
    Attained g (below g s depth open_) := by
  induction depth generalizing open_ with
  | zero =>
      intro id bound hBound hLess
      exact absurd hLess (Nat.not_lt.mpr hBound)
  | succ depth ih =>
      intro id bound hBound hLess
      rw [below_succ] at hLess ⊢
      split at hLess
      · exact absurd hLess (Nat.not_lt.mpr hBound)
      · next hClosed =>
          rw [if_neg hClosed]
          exact (ih (id :: open_)).fromParts hNames hHeaded id
            bound hBound hLess

/- No size is more than endless. -/
theorem below_le_infinite
    (depth : Nat)
    (open_ : List ExpId)
    (id : ExpId)
    {bound : Nat}
    (hBound : bound ≤ infinite) :
    below g s depth open_ id bound ≤ infinite := by
  induction depth generalizing open_ id bound with
  | zero => exact le_rfl
  | succ depth ih =>
      rw [below_succ]
      unfold fromParts
      split
      · exact le_rfl
      · split
        · decide
        · split
          · exact ih _ _ le_rfl
          · exact le_rfl
        · exact (leastOf_le _ _ _).trans hBound
        · exact sumOf_le_infinite (Nat.zero_le _) _
        · exact ih _ _ le_rfl
        · exact ih _ _ le_rfl
        · exact Nat.zero_le _
        · exact Nat.zero_le _
        · exact Nat.zero_le _
        · exact Nat.zero_le _

end Expansions

end MinSize

------------------------------------------------------------
-- Choices where what may be empty comes first
------------------------------------------------------------

namespace Grammar

/-
  In a choice, no alternative that has a text of one token
  comes before one that may be empty.
-/
def EmptyFirst
    (g : Grammar)
    (id : ExpId) : Prop :=
  ∀ before alt after,
    g.form id = .choice (before ++ alt :: after) →
      g.Vanishes [alt] → ∀ b ∈ before, ¬ g.HasText [b] 1

/-
  In no choice is an alternative after the first flagged as
  empty.
-/
def filledLater
    (g : Grammar)
    (s : Session) : Bool :=
  (List.range g.expansions.size).all fun id =>
    match g.form id with
    | .choice alternatives =>
        alternatives.tail.all fun alt => !Nullable.nullable g s alt
    | _ => true

theorem emptyFirst_of_filledLater
    {g : Grammar}
    {s : Session}
    (hFlagged : s.Flagged g)
    (hFilled : g.filledLater s = true)
    (id : ExpId) :
    g.EmptyFirst id := by
  intro before alt after hForm hGone b hb
  have hInside : id < g.expansions.size := by
    apply lt_size_of_expansion
    rw [hForm]
    exact nofun
  have hHere := List.all_eq_true.mp hFilled id
    (List.mem_range.mpr hInside)
  rw [hForm] at hHere
  have hTail : alt ∈ (before ++ alt :: after).tail := by
    cases before with
    | nil => cases hb
    | cons b' before => simp
  have hNot := List.all_eq_true.mp hHere alt hTail
  rw [(hFlagged.empty alt).mpr hGone] at hNot
  cases hNot

------------------------------------------------------------
-- Sizes that are least
------------------------------------------------------------

/- What an expansion unfolds to can be reached with it. -/
theorem Unfolds.reachable
    {g : Grammar}
    {id part : ExpId}
    {parts : List ExpId}
    (hUnfolds : g.Unfolds id parts)
    (hReachable : g.Reachable id)
    (hPart : part ∈ parts) :
    g.Reachable part := by
  have hChild : g.ChildOf part id → g.Reachable part :=
    hReachable.child
  unfold ChildOf children at hChild
  unfold Unfolds at hUnfolds
  have hBody : ∀ body, parts = [body] ∨ parts = [body, id] →
      (part ∈ [body] → g.Reachable part) →
        g.Reachable part := by
    rintro body (rfl | rfl) hBody
    · exact hBody hPart
    · rcases List.mem_cons.mp hPart with rfl | hSelf
      · exact hBody List.mem_cons_self
      · rwa [List.mem_singleton.mp hSelf]
  cases hForm : g.form id with
  | terminal r result member =>
      rw [hForm] at hUnfolds
      exact hUnfolds.elim
  | nonterminal name result args =>
      rw [hForm] at hUnfolds
      rcases hUnfolds with ⟨body, ⟨p, hMem, -, hIs⟩, rfl⟩
      rw [List.mem_singleton.mp hPart]
      exact reachable_body hMem hIs
  | sequence units =>
      rw [hForm] at hUnfolds hChild
      subst hUnfolds
      exact hChild hPart
  | choice alternatives =>
      rw [hForm] at hUnfolds hChild
      rcases hUnfolds with ⟨alt, hAlt, rfl⟩
      rw [List.mem_singleton.mp hPart] at hChild ⊢
      exact hChild hAlt
  | oneOrMore body =>
      rw [hForm] at hUnfolds hChild
      exact hBody body hUnfolds hChild
  | zeroOrMore body =>
      rw [hForm] at hUnfolds hChild
      rcases hUnfolds with rfl | hMore
      · cases hPart
      · exact hBody body (.inr hMore) hChild
  | zeroOrOne body =>
      rw [hForm] at hUnfolds hChild
      rcases hUnfolds with rfl | hOne
      · cases hPart
      · exact hBody body (.inl hOne) hChild
  | tryBlock body catches cleanup =>
      rw [hForm] at hUnfolds hChild
      exact hBody body (.inl hUnfolds) hChild
  | action code =>
      rw [hForm] at hUnfolds
      subst hUnfolds
      cases hPart
  | lookahead la =>
      rw [hForm] at hUnfolds
      subst hUnfolds
      cases hPart

/- What unfolds to anything is there. -/
theorem Unfolds.lt_size
    {g : Grammar}
    {id part : ExpId}
    {parts : List ExpId}
    (hUnfolds : g.Unfolds id parts)
    (hPart : part ∈ parts) :
    id < g.expansions.size := by
  apply lt_size_of_expansion
  intro hForm
  unfold Unfolds at hUnfolds
  rw [hForm] at hUnfolds
  subst hUnfolds
  cases hPart

end Grammar

namespace MinSize

section Expansions

variable {g : Grammar} {s : Session}

/-
  There is depth enough for all expansions that are not being
  measured.
-/
structure Fueled
    (g : Grammar)
    (depth : Nat)
    (open_ : List ExpId) : Prop where
  nodup : open_.Nodup
  inside : ∀ id ∈ open_, id < g.expansions.size
  enough : g.expansions.size < depth + open_.length

theorem Fueled.pos
    {depth : Nat}
    {open_ : List ExpId}
    (hFueled : Fueled g depth open_) :
    0 < depth := by
  have hSubset : open_.toFinset ⊆
      Finset.range g.expansions.size := by
    intro id hid
    exact Finset.mem_range.mpr
      (hFueled.inside id (List.mem_toFinset.mp hid))
  have hCard := Finset.card_le_card hSubset
  rw [List.toFinset_card_of_nodup hFueled.nodup,
    Finset.card_range] at hCard
  have hEnough := hFueled.enough
  omega

theorem Fueled.cons
    {depth : Nat}
    {open_ : List ExpId}
    (hFueled : Fueled g (depth + 1) open_)
    {id : ExpId}
    (hClosed : id ∉ open_)
    (hInside : id < g.expansions.size) :
    Fueled g depth (id :: open_) where
  nodup := List.nodup_cons.mpr ⟨hClosed, hFueled.nodup⟩
  inside := List.forall_mem_cons.mpr ⟨hInside, hFueled.inside⟩
  enough := by
    have hEnough := hFueled.enough
    rw [List.length_cons]
    omega

/- Sizes add up to no more than the parts of a tree cost. -/
theorem sum_le_of_costs
    {size : ExpId → Nat}
    {height total : Nat}
    {us : List ExpId}
    {sizes : List Nat}
    (hSizes : List.Forall₂ (g.Costs height) us sizes)
    (hTotal : sizes.sum ≤ total)
    (hEach : ∀ u ∈ us, ∀ n ≤ total, g.Costs height u n →
      size u ≤ n) :
    (us.map size).sum ≤ sizes.sum := by
  induction hSizes with
  | nil => exact le_rfl
  | @cons u n us sizes hHere _ ih =>
      rw [List.sum_cons] at hTotal
      rw [List.forall_mem_cons] at hEach
      rw [List.map_cons, List.sum_cons, List.sum_cons]
      exact Nat.add_le_add
        (hEach.1 n (by omega) hHere)
        (ih (by omega) hEach.2)

/-
  A size is no more than the leaves of a tree, if the sizes of
  the parts are no more than the leaves below them.
-/
theorem fromParts_le_of_costs
    (hNames : s.KnowsNames g)
    (hHeaded : g.Headed)
    {size : ExpId → Nat → Nat}
    (hSize : Attained g size)
    {id : ExpId}
    (hOrder : g.EmptyFirst id)
    {parts : List ExpId}
    (hUnfolds : g.Unfolds id parts)
    {height : Nat}
    {sizes : List Nat}
    (hSizes : List.Forall₂ (g.Costs height) parts sizes)
    (hParts : ∀ part ∈ parts, ∀ n ≤ sizes.sum,
      g.Costs height part n →
        ∀ bound ≤ infinite, 2 ≤ bound → size part bound ≤ n)
    {bound : Nat}
    (hBound : bound ≤ infinite)
    (hLeast : 2 ≤ bound) :
    fromParts g s size id bound ≤ sizes.sum := by
  have hInfinite : 2 ≤ infinite := by decide
  have hBody : ∀ body rest, parts = body :: rest →
      size body infinite ≤ sizes.sum := by
    rintro body rest rfl
    cases hSizes with
    | @cons _ n _ sizes hHere hRest =>
        have hLe : n ≤ (n :: sizes).sum := by simp
        exact (hParts body List.mem_cons_self n hLe hHere infinite
          le_rfl hInfinite).trans hLe
  unfold Grammar.Unfolds at hUnfolds
  unfold fromParts
  cases hForm : g.form id with
  | terminal r result member =>
      rw [hForm] at hUnfolds
      exact hUnfolds.elim
  | nonterminal name result args =>
      rw [hForm] at hUnfolds
      rcases hUnfolds with ⟨body, hDefines, hOne⟩
      have hFound :=
        (bodyOf?_eq_some_iff hNames name body).mpr hDefines
      simp only [hFound]
      exact hBody body [] hOne
  | sequence units =>
      rw [hForm] at hUnfolds
      subst hUnfolds
      rcases hHeaded id _ hForm with ⟨head, rest, la, rfl, -⟩
      cases hSizes with
      | @cons _ n _ sizes hHead hRest =>
          rw [List.sum_cons] at hParts ⊢
          dsimp only
          rw [List.drop_one, List.tail_cons]
          refine (sumOf_le _ bound 0 rest).trans ?_
          rw [Nat.zero_add]
          refine (sum_le_of_costs hRest le_rfl ?_).trans
            (Nat.le_add_left _ _)
          intro u hu m hm hTree
          exact hParts u (List.mem_cons_of_mem head hu) m
            (hm.trans (Nat.le_add_left _ _)) hTree infinite le_rfl
            hInfinite
  | choice alternatives =>
      rw [hForm] at hUnfolds
      rcases hUnfolds with ⟨alt, hAlt, rfl⟩
      cases hSizes with
      | @cons _ n _ _ hHere hRest =>
          cases hRest
          rw [List.sum_singleton] at hParts ⊢
          rcases List.append_of_mem hAlt with ⟨before, after, rfl⟩
          refine leastOf_le_of_mem hLeast ?_ ?_
          · intro bound' hLe
            exact hParts alt List.mem_cons_self n le_rfl hHere
              bound' (hLe.trans hBound)
          · rintro rfl b hb bound' hLe h2 hOne
            have hGone := Grammar.hasText_zero_iff.mp
              hHere.hasText
            have hText := hSize b bound' (hLe.trans hBound)
              (hOne.trans_lt h2)
            rw [hOne] at hText
            exact hOrder before alt after hForm hGone b hb hText
  | oneOrMore body =>
      rw [hForm] at hUnfolds
      rcases hUnfolds with hOne | hMore
      · exact hBody body [] hOne
      · exact hBody body [id] hMore
  | tryBlock body catches cleanup =>
      rw [hForm] at hUnfolds
      exact hBody body [] hUnfolds
  | zeroOrMore body => exact Nat.zero_le _
  | zeroOrOne body => exact Nat.zero_le _
  | action code => exact Nat.zero_le _
  | lookahead la => exact Nat.zero_le _

/-
  No derivation tree is smaller than the size that is found, if
  what is being measured has no tree that is as small and no
  higher.
-/
theorem below_le_of_costs
    (hNames : s.KnowsNames g)
    (hHeaded : g.Headed)
    (hOrder : ∀ id, g.Reachable id → g.EmptyFirst id)
    {height depth : Nat}
    {open_ : List ExpId}
    {id : ExpId}
    {bound n : Nat}
    (hReachable : g.Reachable id)
    (hBound : bound ≤ infinite)
    (hLeast : 2 ≤ bound)
    (hFueled : Fueled g depth open_)
    (hOpen : ∀ o ∈ open_, ∀ n' ≤ n, ¬ g.Costs height o n')
    (hCosts : g.Costs height id n) :
    below g s depth open_ id bound ≤ n := by
  induction height using Nat.strong_induction_on
    generalizing depth open_ id bound n with
  | _ height ih =>
    -- A tree of least height does not hold its root again.
    rcases hCosts.exists_least with
      ⟨least, hHeight, m, hm, hTree, hLower⟩
    have hClosed : id ∉ open_ :=
      fun hMem => hOpen id hMem n le_rfl hCosts
    obtain ⟨depth, rfl⟩ :=
      Nat.exists_eq_succ_of_ne_zero hFueled.pos.ne'
    rw [below_succ, if_neg hClosed]
    refine le_trans ?_ hm
    rcases hTree with ⟨r, result, member, hToken, rfl⟩ |
      ⟨parts, sizes, hUnfolds, hSizes, rfl⟩
    · unfold fromParts
      rw [hToken]
    · refine fromParts_le_of_costs hNames hHeaded
        (attained_below hNames hHeaded depth (id :: open_))
        (hOrder id hReachable) hUnfolds hSizes ?_ hBound hLeast
      intro part hPart n' hn' hPartCosts bound' hBound' hLeast'
      refine ih least hHeight (hUnfolds.reachable hReachable hPart)
        hBound' hLeast' (hFueled.cons hClosed
          (hUnfolds.lt_size hPart)) ?_ hPartCosts
      intro o ho m' hm' hOther
      have hSmall : m' ≤ n := by omega
      rcases List.mem_cons.mp ho with rfl | ho
      · exact hLower m' hSmall hOther
      · exact hOpen o ho m' hSmall (hOther.mono hHeight.le)

end Expansions

/-
  The fewest tokens of an expansion, after an analysis that
  passes.  A size that is not endless is the length of a text
  that the expansion generates.  No text is shorter, and a size
  is endless only if all texts are, if in no choice an
  alternative with a text of one token comes before one that
  may be empty.
-/
theorem of_fewest
    {b : Builder}
    (hMade : Made b)
    {o : Options}
    {g : Grammar}
    {s : Session}
    (hPasses : analyze b.grammar (.new o) = (g, s, .ok ()))
    {e : ExpId}
    (hReachable : g.Reachable e) :
    (of g s e < infinite → ∃ tokens,
      g.Generates [e] tokens ∧ tokens.length = of g s e) ∧
    ((∀ id, g.Reachable id → g.EmptyFirst id) →
      (∀ tokens, g.Generates [e] tokens →
        of g s e ≤ tokens.length) ∧
      (of g s e = infinite ↔ ∀ tokens, g.Generates [e] tokens →
        infinite ≤ tokens.length)) := by
  have hNames := (flagged_analyze hMade hPasses).2.names
  have hHeaded := headed_analyze hMade hPasses
  have hText : of g s e < infinite → g.HasText [e] (of g s e) :=
    attained_below hNames hHeaded _ [] e infinite le_rfl
  refine ⟨hText, fun hOrder => ?_⟩
  have hLeast : ∀ tokens, g.Generates [e] tokens →
      of g s e ≤ tokens.length := by
    intro tokens hGenerates
    rcases Grammar.exists_costs_of_generates hGenerates with
      ⟨height, sizes, hSizes, hSum⟩
    cases hSizes with
    | cons hHere hRest =>
        cases hRest
        rw [List.sum_singleton] at hSum
        rw [← hSum]
        refine below_le_of_costs hNames hHeaded hOrder hReachable
          le_rfl (by decide) ?_ (List.forall_mem_nil _) hHere
        exact ⟨List.nodup_nil, List.forall_mem_nil _,
          Nat.lt_succ_self _⟩
  refine ⟨hLeast, fun hSame => hSame ▸ hLeast, fun hAll => ?_⟩
  by_contra hOther
  have hLe : of g s e ≤ infinite :=
    below_le_infinite _ [] e le_rfl
  have hLess := Nat.lt_of_le_of_ne hLe hOther
  rcases hText hLess with ⟨tokens, hGenerates, hLength⟩
  exact absurd (hAll tokens hGenerates) (by omega)

/- One token, or else nothing. -/
def tokenFirst : Calls :=
  [.literal "a", .action "", .choice [0, 1]]

/- Where the token comes first, the size is too large. -/
example : of tokenFirst.built.grammar (.new {}) 6 = 1 := by
  decide +kernel

/-
  Parentheses around nothing, around the same again before `,`,
  or around what is written by hand.
-/
def nest : Calls :=
  [.codeProduction "Hand" .java "void" "{}",
    .literal "(", .action "", .nonterminal "Nest" "",
    .literal ",", .sequence [2, 3], .nonterminal "Hand" "",
    .choice [1, 5, 6], .literal ")", .sequence [0, 11, 12],
    .production "Nest" "void" "" 14]

theorem of_fewest_nest :
    ∃ g s, analyze nest.built.grammar (.new twoAhead) =
        (g, s, .ok ()) ∧
      (∃ tokens, g.Generates [14] tokens ∧ tokens.length = 2) ∧
      (∀ tokens, g.Generates [14] tokens → 2 ≤ tokens.length) ∧
      of g s 14 = 2 := by
  have hMade : Made nest.built := by
    apply Calls.made_built
    simp only [ValidCalls, nest, Call.Valid]
    decide +kernel
  have hResolved :
      (nest.resolved twoAhead).2.diagnostics.errorCount = 0 := by
    cbv
  have hChecked : (Analysis.sanityCheck (nest.resolved twoAhead).1
      (nest.flagged twoAhead)).diagnostics.errorCount = 0 := by
    rw [Analysis.sanityCheck_eq]
    cbv
  have hPasses : analyze nest.built.grammar
        (.new twoAhead) =
      ((nest.resolved twoAhead).1,
        Analysis.sanityCheck (nest.resolved twoAhead).1
          (nest.flagged twoAhead),
        .ok ()) :=
    Calls.analyze_built rfl hResolved hChecked
  have hReachable : (nest.resolved twoAhead).1.Reachable 14 := by
    have hBody : (nest.built.grammar.production 1).expansion? =
        some 14 := by
      decide +kernel
    refine Grammar.reachable_body ?_ hBody
    rw [Calls.resolved, productions_resolve]
    decide +kernel
  have hSize : of (nest.resolved twoAhead).1
      (Analysis.sanityCheck (nest.resolved twoAhead).1
        (nest.flagged twoAhead)) 14 =
        2 := by
    rw [Analysis.sanityCheck_eq]
    cbv
  have hFilled : (nest.resolved twoAhead).1.filledLater
      (Analysis.sanityCheck (nest.resolved twoAhead).1
        (nest.flagged twoAhead)) = true := by
    rw [Analysis.sanityCheck_eq]
    cbv
  have hFlagged := (flagged_analyze hMade hPasses).2
  have hFewest := of_fewest hMade hPasses hReachable
  rw [hSize] at hFewest
  have hLeast := (hFewest.2 fun id _ =>
    Grammar.emptyFirst_of_filledLater hFlagged hFilled id).1
  exact ⟨_, _, hPasses, hFewest.1 (by decide), hLeast, hSize⟩

end MinSize

end Descent
