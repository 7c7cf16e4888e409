import Descent.Lexer.Tables
import Descent.Proofs.Numbering

/-
  The kinds that are active in a lexical state.

  A lexer goes through the entries of all sections.  In a
  grammar that passes analysis the kinds of entries are their
  own, so what it collects for a state are the entries that
  count there, each once, and what it keeps for a kind is what
  the entry of that kind says.

  Main declarations:
    * `Lexer.CountsIn`
    * `Lexer.Collects`
    * `Lexer.collects_collect`
    * `Lexer.eq_of_literal`
-/

------------------------------------------------------------
-- Entries that a scanner sees
------------------------------------------------------------

namespace Descent

open TokenTable (EntriesApart isReference)

namespace Lexer

/- An entry of a section, with the section. -/
abbrev Entry :=
  TokenSection × TokenSpec

/- The kind of an entry that a scanner sees. -/
def entryKind?
    (g : Grammar)
    (tokenKinds : Nat)
    (e : Entry) : Option Kind :=
  scannedKind? (g.regex e.2.regex) tokenKinds

/- An entry counts in a lexical state. -/
def CountsIn
    (g : Grammar)
    (i : Nat)
    (e : Entry) : Prop :=
  ∃ name ∈ g.statesIn e.1, g.stateIndex? name = some i

/- An entry with its kind, as it is active. -/
def activeOf
    (e : Entry)
    (k : Kind) : Active :=
  ⟨k, e.2.regex, e.1.ignoreCase⟩

theorem entryKind?_eq_some
    {g : Grammar}
    {tokenKinds : Nat}
    {e : Entry}
    {k : Nat}
    (hKind : entryKind? g tokenKinds e = some k) :
    (g.regex e.2.regex).kind = k ∧ k ≠ 0 ∧ k < tokenKinds ∧
      isReference (g.regex e.2.regex) = false := by
  have hRest : ∀ {r : RegexNode},
      (if r.isPrivate || r.kind == 0 || tokenKinds ≤ r.kind
        then none else some r.kind) = some k →
      r.kind = k ∧ k ≠ 0 ∧ k < tokenKinds := by
    intro r hSome
    split at hSome
    · cases hSome
    · next hNot =>
        have hSame : r.kind = k := Option.some_inj.mp hSome
        simp only [Bool.or_eq_true, beq_iff_eq,
          decide_eq_true_eq, not_or, not_le] at hNot
        rw [hSame] at hNot
        exact ⟨hSame, hNot.1.2, hNot.2⟩
  unfold entryKind? scannedKind? at hKind
  unfold isReference
  cases hForm : (g.regex e.2.regex).form with
  | endOfFile =>
      rw [hForm] at hKind
      cases hKind
  | reference name target =>
      rw [hForm] at hKind
      cases hKind
  | _ =>
      rw [hForm] at hKind
      rcases hRest hKind with ⟨hSame, hSome, hBelow⟩
      exact ⟨hSame, hSome, hBelow, rfl⟩

/- The kinds of entries that a scanner sees are their own. -/
theorem pairwise_entryKind?
    {g : Grammar}
    (hApart : EntriesApart g)
    (tokenKinds : Nat) :
    g.entries.Pairwise fun e e' =>
      ∀ k, entryKind? g tokenKinds e = some k →
        entryKind? g tokenKinds e' ≠ some k := by
  apply List.Pairwise.imp _ hApart
  intro e e' hBoth k hKind hKind'
  rcases entryKind?_eq_some hKind with ⟨hSame, hSome, -, hNot⟩
  rcases entryKind?_eq_some hKind' with ⟨hSame', -, -, hNot'⟩
  have hZero := (hBoth hNot hNot').kinds
    (hSame.trans hSame'.symm)
  exact hSome (hSame'.symm.trans hZero)

/- Entries that a relation keeps apart both ways are equal. -/
theorem eq_of_pairwise
    {α : Type}
    {R : α → α → Prop}
    {xs : List α}
    (hPairwise : xs.Pairwise R)
    {x y : α}
    (hx : x ∈ xs)
    (hy : y ∈ xs)
    (hForth : ¬ R x y)
    (hBack : ¬ R y x) :
    x = y := by
  induction xs with
  | nil => cases hx
  | cons z xs ih =>
      rw [List.pairwise_cons] at hPairwise
      rcases List.mem_cons.mp hx with hFirst | hRest
      · rcases List.mem_cons.mp hy with hFirst' | hRest'
        · exact hFirst.trans hFirst'.symm
        · rw [hFirst] at hForth
          exact absurd (hPairwise.1 y hRest') hForth
      · rcases List.mem_cons.mp hy with hFirst' | hRest'
        · rw [hFirst'] at hBack
          exact absurd (hPairwise.1 x hRest) hBack
        · exact ih hPairwise.2 hRest hRest'

------------------------------------------------------------
-- Making kinds active
------------------------------------------------------------

/- The active kinds of a state, with one more. -/
def withActive
    (a : Active)
    (as : List Active) : List Active :=
  if as.any (·.kind == a.kind) then as else as ++ [a]

theorem mem_withActive
    {a : Active}
    {as : List Active}
    (hOnly : ∀ b ∈ as, b.kind = a.kind → b = a)
    (b : Active) :
    b ∈ withActive a as ↔ b ∈ as ∨ b = a := by
  unfold withActive
  split
  · next hAny =>
      refine ⟨.inl, ?_⟩
      intro hb
      rcases hb with hb | rfl
      · exact hb
      · rcases List.any_eq_true.mp hAny with ⟨b', hb', hKind⟩
        rw [beq_iff_eq] at hKind
        rwa [hOnly b' hb' hKind] at hb'
  · rw [List.mem_append, List.mem_singleton]

theorem nodup_withActive
    {a : Active}
    {as : List Active}
    (hNodup : (as.map (·.kind)).Nodup) :
    ((withActive a as).map (·.kind)).Nodup := by
  unfold withActive
  split
  · exact hNodup
  · next hAny =>
      rw [List.map_append, List.nodup_append]
      refine ⟨hNodup, List.pairwise_singleton _ _, ?_⟩
      intro k hk k' hk' hEq
      rcases List.mem_map.mp hk with ⟨b, hb, rfl⟩
      rw [List.map_singleton, List.mem_singleton] at hk'
      apply hAny
      rw [List.any_eq_true]
      exact ⟨b, hb, beq_iff_eq.mpr (hEq.trans hk')⟩

/- Make a kind active in a state whose kinds are others. -/
theorem mem_activate
    {g : Grammar}
    {a : Active}
    {c c' : Collected}
    {name : String}
    (hSize : c.active.size = g.lexicalStates.length)
    (hOnly : ∀ i, ∀ b ∈ c.active.getD i [],
      b.kind = a.kind → b = a)
    (hActivate : activate g a c name = .ok c') :
    c'.kinds = c.kinds ∧ c'.active.size = c.active.size ∧
      (∀ i b, b ∈ c'.active.getD i [] ↔
        b ∈ c.active.getD i [] ∨
          (b = a ∧ g.stateIndex? name = some i)) ∧
      ((∀ i, ((c.active.getD i []).map (·.kind)).Nodup) →
        ∀ i, ((c'.active.getD i []).map (·.kind)).Nodup) := by
  unfold activate requireState at hActivate
  cases hIndex : g.stateIndex? name with
  | none =>
      rw [hIndex] at hActivate
      cases hActivate
  | some j =>
      rw [hIndex] at hActivate
      have hInside : j < c.active.size := by
        rw [hSize]
        exact (List.findIdx?_eq_some_iff_getElem.mp hIndex).1
      cases hActivate
      have hGet := fun i =>
        getD_modify c.active (withActive a) [] i hInside
      refine ⟨rfl, Array.size_modify, ?_, ?_⟩
      · intro i b
        refine (congrArg (b ∈ ·) (hGet i)).to_iff.trans ?_
        split
        · next hSame =>
            rw [mem_withActive (hOnly i), hSame]
            simp
        · next hOther =>
            refine ⟨.inl, ?_⟩
            intro hb
            rcases hb with hb | ⟨-, hi⟩
            · exact hb
            · exact absurd (Option.some_inj.mp hi).symm hOther
      · intro hNodup i
        refine (congrArg (fun as => (as.map (·.kind)).Nodup)
          (hGet i)).mpr ?_
        split
        · exact nodup_withActive (hNodup i)
        · exact hNodup i

/- Make a kind active in several states. -/
theorem mem_foldlM_activate
    {g : Grammar}
    {a : Active}
    (names : List String)
    {c c' : Collected}
    (hSize : c.active.size = g.lexicalStates.length)
    (hOnly : ∀ i, ∀ b ∈ c.active.getD i [],
      b.kind = a.kind → b = a)
    (hFold : names.foldlM (activate g a) c = .ok c') :
    c'.kinds = c.kinds ∧ c'.active.size = c.active.size ∧
      (∀ i b, b ∈ c'.active.getD i [] ↔
        b ∈ c.active.getD i [] ∨
          (b = a ∧
            ∃ name ∈ names, g.stateIndex? name = some i)) ∧
      ((∀ i, ((c.active.getD i []).map (·.kind)).Nodup) →
        ∀ i, ((c'.active.getD i []).map (·.kind)).Nodup) := by
  induction names generalizing c with
  | nil =>
      cases hFold
      refine ⟨rfl, rfl, ?_, fun h => h⟩
      intro i b
      simp
  | cons name names ih =>
      rw [List.foldlM_cons] at hFold
      cases hFirst : activate g a c name with
      | error e =>
          rw [hFirst] at hFold
          cases hFold
      | ok c₁ =>
          rw [hFirst] at hFold
          rcases mem_activate hSize hOnly hFirst with
            ⟨hKinds, hSize₁, hMem₁, hNodup₁⟩
          have hOnly₁ : ∀ i, ∀ b ∈ c₁.active.getD i [],
              b.kind = a.kind → b = a := by
            intro i b hb hKind
            rcases (hMem₁ i b).mp hb with hb | ⟨rfl, -⟩
            · exact hOnly i b hb hKind
            · rfl
          rcases ih (hSize₁.trans hSize) hOnly₁ hFold with
            ⟨hKinds', hSize', hMem', hNodup'⟩
          refine ⟨hKinds'.trans hKinds, hSize'.trans hSize₁,
            ?_, fun h => hNodup' (hNodup₁ h)⟩
          intro i b
          rw [hMem', hMem₁]
          simp only [List.mem_cons, exists_eq_or_imp]
          constructor
          · intro hb
            rcases hb with (hb | ⟨hb, hi⟩) | ⟨hb, hi⟩
            · exact .inl hb
            · exact .inr ⟨hb, .inl hi⟩
            · exact .inr ⟨hb, .inr hi⟩
          · intro hb
            rcases hb with hb | ⟨hb, hi | hi⟩
            · exact .inl (.inl hb)
            · exact .inl (.inr ⟨hb, hi⟩)
            · exact .inr ⟨hb, hi⟩

------------------------------------------------------------
-- Collecting entries
------------------------------------------------------------

/- What a lexer keeps for the kind of an entry. -/
def entryAttrs
    (e : Entry)
    (next : Option Nat) : KindAttrs :=
  ⟨e.1.cls, e.2.action, next, e.2.regex, e.1.ignoreCase⟩

/- What has been collected from some entries. -/
structure Collects
    (g : Grammar)
    (tokenKinds : Nat)
    (entries : List Entry)
    (c : Collected) : Prop where
  kindsSize : c.kinds.size = tokenKinds
  activeSize : c.active.size = g.lexicalStates.length
  active :
    ∀ i a, a ∈ c.active.getD i [] ↔
      ∃ e ∈ entries, ∃ k, entryKind? g tokenKinds e = some k ∧
        CountsIn g i e ∧ a = activeOf e k
  distinct : ∀ i, ((c.active.getD i []).map (·.kind)).Nodup
  attrs :
    ∀ e ∈ entries, ∀ k, entryKind? g tokenKinds e = some k →
      ∃ next, requireState? g e.2.nextState = .ok next ∧
        c.kinds.getD k none = some (entryAttrs e next)

section Snoc

variable {g : Grammar} {tokenKinds : Nat}
variable {entries : List Entry} {c c' : Collected} {e : Entry}

/- An entry that a scanner does not see changes nothing. -/
theorem Collects.snoc_unseen
    (hCollects : Collects g tokenKinds entries c)
    (hKind : entryKind? g tokenKinds e = none) :
    Collects g tokenKinds (entries ++ [e]) c := by
  have hOld : ∀ {e' k}, e' ∈ entries ++ [e] →
      entryKind? g tokenKinds e' = some k → e' ∈ entries := by
    intro e' k he' hk
    rcases List.mem_append.mp he' with he' | he'
    · exact he'
    · rw [List.mem_singleton.mp he', hKind] at hk
      cases hk
  refine ⟨hCollects.kindsSize, hCollects.activeSize, ?_,
    hCollects.distinct, ?_⟩
  · intro i a
    rw [hCollects.active]
    constructor
    · rintro ⟨e', he', hRest⟩
      exact ⟨e', List.mem_append_left _ he', hRest⟩
    · rintro ⟨e', he', k, hk, hRest⟩
      exact ⟨e', hOld he' hk, k, hk, hRest⟩
  · intro e' he' k hk
    exact hCollects.attrs e' (hOld he' hk) k hk

/- An entry that a scanner sees is active in its states. -/
theorem Collects.snoc_seen
    (hCollects : Collects g tokenKinds entries c)
    {kind : Nat}
    (hKind : entryKind? g tokenKinds e = some kind)
    (hOwn : ∀ e' ∈ entries,
      entryKind? g tokenKinds e' ≠ some kind)
    {next : Option Nat}
    (hNext : requireState? g e.2.nextState = .ok next)
    (hFold : (g.statesIn e.1).foldlM
      (activate g (activeOf e kind))
      { c with
        kinds := c.kinds.setIfInBounds kind
          (some (entryAttrs e next)) } = .ok c') :
    Collects g tokenKinds (entries ++ [e]) c' := by
  have hMem : ∀ e', e' ∈ entries ++ [e] ↔
      e' ∈ entries ∨ e' = e := by
    intro e'
    rw [List.mem_append, List.mem_singleton]
  let c₁ : Collected :=
    { c with
      kinds := c.kinds.setIfInBounds kind
        (some (entryAttrs e next)) }
  have hSize₁ : c₁.active.size = g.lexicalStates.length :=
    hCollects.activeSize
  have hOnly : ∀ i, ∀ b ∈ c₁.active.getD i [],
      b.kind = (activeOf e kind).kind →
        b = activeOf e kind := by
    intro i b hb hSame
    rcases (hCollects.active i b).mp hb with
      ⟨e', he', k, hk, -, rfl⟩
    have hk' : k = kind := hSame
    rw [hk'] at hk
    exact absurd hk (hOwn e' he')
  rcases mem_foldlM_activate _ hSize₁ hOnly hFold with
    ⟨hKinds, hSize, hActive, hNodup⟩
  dsimp only [c₁] at hKinds hActive
  have hBelow := (entryKind?_eq_some hKind).2.2.1
  refine ⟨?_, hSize.trans hCollects.activeSize, ?_,
    hNodup hCollects.distinct, ?_⟩
  · rw [hKinds, Array.size_setIfInBounds]
    exact hCollects.kindsSize
  · intro i a
    rw [hActive i a, hCollects.active]
    constructor
    · intro ha
      rcases ha with ⟨e', he', hRest⟩ | ⟨rfl, hState⟩
      · exact ⟨e', (hMem e').mpr (.inl he'), hRest⟩
      · exact ⟨e, (hMem e).mpr (.inr rfl), kind, hKind,
          hState, rfl⟩
    · rintro ⟨e', he', k, hk, hState, rfl⟩
      rcases (hMem e').mp he' with he' | rfl
      · exact .inl ⟨e', he', k, hk, hState, rfl⟩
      · rw [hKind] at hk
        cases hk
        exact .inr ⟨rfl, hState⟩
  · intro e' he' k hk
    rw [hKinds, Array.getD_eq_getD_getElem?,
      Array.getElem?_setIfInBounds]
    rcases (hMem e').mp he' with he' | rfl
    · rcases hCollects.attrs e' he' k hk with
        ⟨next', hNext', hGet⟩
      have hOther : kind ≠ k := by
        rintro rfl
        exact hOwn e' he' hk
      rw [if_neg hOther, ← Array.getD_eq_getD_getElem?]
      exact ⟨next', hNext', hGet⟩
    · rw [hKind] at hk
      cases hk
      rw [if_pos rfl, if_pos
        (hBelow.trans_eq hCollects.kindsSize.symm)]
      exact ⟨next, hNext, rfl⟩

/- Collect one entry, whose kind is its own. -/
theorem Collects.snoc
    (hCollects : Collects g tokenKinds entries c)
    (hOwn : ∀ e' ∈ entries, ∀ k,
      entryKind? g tokenKinds e' = some k →
        entryKind? g tokenKinds e ≠ some k)
    (hStep : collectSpec g tokenKinds e.1 (g.statesIn e.1) c
      e.2 = .ok c') :
    Collects g tokenKinds (entries ++ [e]) c' := by
  have hSeen : scannedKind? (g.regex e.2.regex) tokenKinds =
      entryKind? g tokenKinds e := rfl
  unfold collectSpec at hStep
  rw [hSeen] at hStep
  cases hKind : entryKind? g tokenKinds e with
  | none =>
      rw [hKind] at hStep
      cases hStep
      exact hCollects.snoc_unseen hKind
  | some kind =>
      rw [hKind] at hStep
      dsimp only at hStep
      cases hNext : requireState? g e.2.nextState with
      | error failure =>
          rw [hNext] at hStep
          cases hStep
      | ok next =>
          rw [hNext] at hStep
          exact hCollects.snoc_seen hKind
            (fun e' he' hk => hOwn e' he' kind hk hKind) hNext
            hStep

end Snoc

theorem Collects.foldlM
    {g : Grammar}
    {tokenKinds : Nat}
    (later : List Entry)
    {entries : List Entry}
    {c c' : Collected}
    (hCollects : Collects g tokenKinds entries c)
    (hOwn : (entries ++ later).Pairwise fun e e' =>
      ∀ k, entryKind? g tokenKinds e = some k →
        entryKind? g tokenKinds e' ≠ some k)
    (hFold : later.foldlM
      (fun c e => collectSpec g tokenKinds e.1
        (g.statesIn e.1) c e.2) c = .ok c') :
    Collects g tokenKinds (entries ++ later) c' := by
  induction later generalizing entries c with
  | nil =>
      cases hFold
      rwa [List.append_nil]
  | cons e later ih =>
      rw [List.foldlM_cons] at hFold
      cases hStep : collectSpec g tokenKinds e.1
          (g.statesIn e.1) c e.2 with
      | error failure =>
          rw [hStep] at hFold
          cases hFold
      | ok c₁ =>
          rw [hStep] at hFold
          have hSplit : entries ++ e :: later =
              entries ++ [e] ++ later := by
            simp
          have hBefore : ∀ e' ∈ entries, ∀ k,
              entryKind? g tokenKinds e' = some k →
                entryKind? g tokenKinds e ≠ some k := by
            intro e' he'
            exact (List.pairwise_append.mp hOwn).2.2 e' he' e
              List.mem_cons_self
          rw [hSplit] at hOwn ⊢
          exact ih (hCollects.snoc hBefore hStep) hOwn hFold

/- Collecting goes through the entries of all sections. -/
theorem collect_eq
    (g : Grammar)
    (tokenKinds : Nat) :
    collect g tokenKinds =
      g.entries.foldlM
        (fun c e => collectSpec g tokenKinds e.1
          (g.statesIn e.1) c e.2)
        { kinds := Array.replicate tokenKinds none,
          active := Array.replicate g.lexicalStates.length
            [] } := by
  have hSections : (List.range g.sections.size).map
      g.tokenSection = g.sections.toList := by
    apply List.ext_getElem?
    intro i
    rw [List.getElem?_map]
    unfold Grammar.tokenSection
    by_cases hInside : i < g.sections.size
    · simp [hInside]
    · simp [hInside]
  unfold collect Grammar.entries
  rw [← hSections]
  generalize ({ kinds := _, active := _ } : Collected) = c
  generalize List.range g.sections.size = ids
  induction ids generalizing c with
  | nil => rfl
  | cons i ids ih =>
      rw [List.foldlM_cons, List.map_cons, List.flatMap_cons,
        List.foldlM_append, List.foldlM_map]
      congr 1
      funext c₁
      exact ih c₁

/- What is collected are the entries, each with its kind. -/
theorem collects_collect
    {g : Grammar}
    (hApart : EntriesApart g)
    {tokenKinds : Nat}
    {c : Collected}
    (hCollect : collect g tokenKinds = .ok c) :
    Collects g tokenKinds g.entries c := by
  rw [collect_eq] at hCollect
  have hNone : ∀ i, (Array.replicate g.lexicalStates.length
      ([] : List Active)).getD i [] = [] := by
    intro i
    rw [Array.getD_eq_getD_getElem?, Array.getElem?_replicate]
    split <;> rfl
  have hStart : Collects g tokenKinds []
      { kinds := Array.replicate tokenKinds none,
        active := Array.replicate g.lexicalStates.length
          [] } := by
    refine ⟨Array.size_replicate, Array.size_replicate, ?_,
      ?_, ?_⟩
    · intro i a
      dsimp only
      rw [hNone]
      simp
    · intro i
      dsimp only
      rw [hNone]
      exact .nil
    · intro e he
      cases he
  exact hStart.foldlM g.entries
    (pairwise_entryKind? hApart tokenKinds) hCollect

------------------------------------------------------------
-- Active literals
------------------------------------------------------------

section Active

variable {g : Grammar} {tokenKinds : Nat} {c : Collected}

theorem stateIndex?_eq_some
    {name : String}
    {i : Nat}
    (hIndex : g.stateIndex? name = some i) :
    g.lexicalStates[i]? = some name := by
  rcases List.findIdx?_eq_some_iff_getElem.mp hIndex with
    ⟨hInside, hName, -⟩
  rw [List.getElem?_eq_getElem hInside]
  exact congrArg some (beq_iff_eq.mp hName)

/-
  Active literals with regard to case and with the same text
  are the same.
-/
theorem eq_of_literal
    (hApart : EntriesApart g)
    (hCollects : Collects g tokenKinds g.entries c)
    {i : Nat}
    {a a' : Active}
    (ha : a ∈ c.active.getD i [])
    (ha' : a' ∈ c.active.getD i [])
    (hCase : a.ignoreCase = false)
    (hCase' : a'.ignoreCase = false)
    {image : String}
    (hForm : (g.regex a.regex).form = .literal image)
    (hForm' : (g.regex a'.regex).form = .literal image) :
    a = a' := by
  rcases (hCollects.active i a).mp ha with
    ⟨e, he, k, hk, ⟨name, hName, hIndex⟩, rfl⟩
  rcases (hCollects.active i a').mp ha' with
    ⟨e', he', k', hk', ⟨name', hName', hIndex'⟩, rfl⟩
  have hSame : name = name' := by
    have hGet := stateIndex?_eq_some hIndex
    rw [stateIndex?_eq_some hIndex'] at hGet
    exact (Option.some_inj.mp hGet).symm
  subst hSame
  have hNot := (entryKind?_eq_some hk).2.2.2
  have hNot' := (entryKind?_eq_some hk').2.2.2
  have hEqual : e = e' := by
    apply eq_of_pairwise hApart he he'
    · intro hBoth
      exact (hBoth hNot hNot').literals image hForm hForm'
        hCase hCase' name hName hName'
    · intro hBoth
      exact (hBoth hNot' hNot).literals image hForm' hForm
        hCase' hCase name hName' hName
  subst hEqual
  rw [hk] at hk'
  cases hk'
  rfl

theorem kind_of_active
    (hCollects : Collects g tokenKinds g.entries c)
    {i : Nat}
    {a : Active}
    (ha : a ∈ c.active.getD i []) :
    a.kind ≠ 0 ∧ a.kind < tokenKinds := by
  rcases (hCollects.active i a).mp ha with
    ⟨e, -, k, hk, -, rfl⟩
  exact ⟨(entryKind?_eq_some hk).2.1,
    (entryKind?_eq_some hk).2.2.1⟩

end Active

end Lexer

end Descent
