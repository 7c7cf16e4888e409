import Descent.Analysis
import Descent.Proofs.Acceptance
import Descent.Proofs.Collections
import Mathlib.Data.List.Flatten

/-
  What analysis leaves of the entries of the token sections.

  Numbering goes through the entries in order.  A kind that is
  given is larger than all before it, and a literal whose text
  is known in one of its states is an error or is dropped.  So
  the entries of a grammar that passes have kinds of their
  own, and literals with regard to case share no state with
  another literal of the same text.

  Main declarations:
    * `Session.Clean`
    * `Grammar.entries`
    * `Grammar.Apart`
    * `TokenTable.numbered_assignKinds`
    * `pairwise_entries_analyze`
    * `regexTree_analyze`
-/

------------------------------------------------------------
-- Sessions without errors
------------------------------------------------------------

namespace Descent

namespace Session

/- No error has been recorded. -/
def Clean
    (s : Session) : Prop :=
  s.diagnostics.errorCount = 0

theorem not_clean_error
    (s : Session)
    (place : Location)
    (message : String) :
    ¬ (s.error place message).Clean := by
  simp [Clean, error, Diagnostics.error, Diagnostics.push,
    Diagnostics.errorCount, Diagnostics.errors,
    Diagnostics.ofSeverity]

@[simp] theorem clean_warning
    (s : Session)
    (place : Location)
    (message : String) :
    (s.warning place message).Clean ↔ s.Clean := by
  simp [Clean, warning, Diagnostics.warning, Diagnostics.push,
    Diagnostics.errorCount, Diagnostics.errors,
    Diagnostics.ofSeverity]

/- Nothing is told as an error where there is none. -/
theorem Clean.eq_nil
    {s : Session}
    (hClean : s.Clean)
    {α : Type}
    {report : α → Diagnostic}
    (hErrors : ∀ x, (report x).severity = .error)
    {before : List Diagnostic}
    {xs : List α}
    (hEntries : s.diagnostics.entries.toList =
      before ++ xs.map report) :
    xs = [] := by
  unfold Clean Diagnostics.errorCount Diagnostics.errors
    Diagnostics.ofSeverity at hClean
  rw [List.length_eq_zero_iff, hEntries, List.filter_append,
    List.append_eq_nil_iff] at hClean
  have hKept := List.filter_eq_nil_iff.mp hClean.2
  cases xs with
  | nil => rfl
  | cons x xs =>
      have hNot := hKept (report x)
        (List.mem_map_of_mem List.mem_cons_self)
      exact absurd (beq_iff_eq.mpr (hErrors x)) hNot

theorem clean_of_checkpoint
    {s : Session}
    (hPasses : s.diagnostics.checkpoint = .ok ()) :
    s.Clean := by
  unfold Diagnostics.checkpoint at hPasses
  split at hPasses
  · cases hPasses
  · next hNone => exact Nat.eq_zero_of_not_pos hNone

end Session

------------------------------------------------------------
-- Token expressions of a changed grammar
------------------------------------------------------------

namespace Grammar

theorem regex_modifyRegex
    (g : Grammar)
    (id : RegexId)
    (f : RegexNode → RegexNode)
    (r : RegexId) :
    (g.modifyRegex id f).regex r =
      if r = id ∧ id < g.regexes.size then f (g.regex id)
      else g.regex r :=
  getD_modify_at g.regexes f default r id

/-
  Token expressions are kept but for what a reference stands
  for and for kinds.
-/
def Keeps
    (g g' : Grammar) : Prop :=
  ∀ id, (g'.regex id).form = (g.regex id).form ∨
    (TokenTable.isReference (g.regex id) = true ∧
      TokenTable.isReference (g'.regex id) = true)

theorem Keeps.refl
    (g : Grammar) :
    g.Keeps g :=
  fun _ => .inl rfl

theorem Keeps.trans
    {g g' g'' : Grammar}
    (hFirst : g.Keeps g')
    (hSecond : g'.Keeps g'') :
    g.Keeps g'' := by
  intro id
  rcases hFirst id with hForm | ⟨hBefore, hMid⟩
  · rcases hSecond id with hForm' | ⟨hMid, hAfter⟩
    · exact .inl (hForm'.trans hForm)
    · refine .inr ⟨?_, hAfter⟩
      unfold TokenTable.isReference at hMid ⊢
      rwa [hForm] at hMid
  · rcases hSecond id with hForm' | ⟨-, hAfter⟩
    · refine .inr ⟨hBefore, ?_⟩
      unfold TokenTable.isReference at hMid ⊢
      rwa [hForm']
    · exact .inr ⟨hBefore, hAfter⟩

theorem regexChildren_of_reference
    {g : Grammar}
    {id : RegexId}
    (hReference : TokenTable.isReference (g.regex id) = true) :
    g.regexChildren id = [] := by
  unfold TokenTable.isReference at hReference
  unfold regexChildren
  cases hForm : (g.regex id).form <;>
    simp_all

theorem Keeps.regexChildren
    {g g' : Grammar}
    (hKeeps : g.Keeps g')
    (id : RegexId) :
    g'.regexChildren id = g.regexChildren id := by
  rcases hKeeps id with hForm | ⟨hBefore, hAfter⟩
  · unfold Grammar.regexChildren
    rw [hForm]
  · rw [regexChildren_of_reference hBefore,
      regexChildren_of_reference hAfter]

theorem Keeps.regexTree
    {g g' : Grammar}
    (hKeeps : g.Keeps g')
    (hTree : g.RegexTree) :
    g'.RegexTree := by
  have hSame : g'.PartOf = g.PartOf := by
    funext part whole
    unfold PartOf
    rw [hKeeps.regexChildren]
  unfold RegexTree at hTree ⊢
  rwa [hSame]

------------------------------------------------------------
-- Entries
------------------------------------------------------------

/- The entries of all sections, each with its section alone. -/
def entries
    (g : Grammar) : List (TokenSection × TokenSpec) :=
  g.sections.toList.flatMap fun sec =>
    sec.specs.map fun spec => ({ sec with specs := [] }, spec)

/- The states of a section. -/
def statesIn
    (g : Grammar)
    (sec : TokenSection) : List String :=
  sec.states.getD g.lexicalStates

/-
  Two entries are apart: they have kinds of their own, and
  literals with regard to case that share a state have
  different texts.
-/
structure Apart
    (g : Grammar)
    (e e' : TokenSection × TokenSpec) : Prop where
  kinds :
    (g.regex e.2.regex).kind = (g.regex e'.2.regex).kind →
      (g.regex e'.2.regex).kind = 0
  literals :
    ∀ image, (g.regex e.2.regex).form = .literal image →
      (g.regex e'.2.regex).form = .literal image →
      e.1.ignoreCase = false → e'.1.ignoreCase = false →
      ∀ state ∈ g.statesIn e.1, state ∉ g.statesIn e'.1

end Grammar

------------------------------------------------------------
-- Literals by text
------------------------------------------------------------

namespace TokenTable

/- A literal with this text has been entered in a state. -/
def Entered
    (s : Session)
    (state image : String) : Prop :=
  ∃ variants,
    Assoc.get? (Text.upperText image)
        ((Assoc.get? state s.simpleTokens).getD []) =
      some variants ∧
    (Assoc.get? image variants).isSome = true

/- The literal that is entered with a text in a state. -/
def entry?
    (s : Session)
    (state image : String) : Option RegexId :=
  (Assoc.get? (Text.upperText image)
    ((Assoc.get? state s.simpleTokens).getD [])).bind
      (Assoc.get? image)

theorem entered_iff
    (s : Session)
    (state image : String) :
    Entered s state image ↔
      entry? s state image ≠ none := by
  unfold Entered entry?
  cases Assoc.get? (Text.upperText image)
      ((Assoc.get? state s.simpleTokens).getD []) with
  | none => simp
  | some variants => simp [Option.isSome_iff_ne_none]

/- Nothing ignores case where a known text regards it. -/
theorem not_ignoresCase_of_not_covered
    {g : Grammar}
    {variants : Variants}
    {image : String}
    {existing : RegexId}
    (hGet : Assoc.get? image variants = some existing)
    (hNone : coveringLiteral? g variants image = none) :
    ignoresCase g existing = false := by
  by_contra hNot
  have hIgnores : ignoresCase g existing = true := by
    simpa using hNot
  unfold coveringLiteral? at hNone
  rw [hGet] at hNone
  dsimp only at hNone
  rw [if_pos hIgnores, List.find?_eq_none] at hNone
  have hMem : existing ∈ variants.map (·.2) :=
    List.mem_map_of_mem (Assoc.mem_of_get? hGet)
  exact hNone existing hMem hIgnores

theorem entered_enterVariant_self
    (n : Numbering)
    (state image : String)
    (id : RegexId) :
    Entered
      (n.enterVariant state (Text.upperText image) image
        id).session state image := by
  unfold Entered Numbering.enterVariant
  dsimp only
  rw [Assoc.get?_alter, if_pos rfl, Option.getD_some,
    Assoc.get?_alter, if_pos rfl]
  refine ⟨_, rfl, ?_⟩
  unfold Assoc.insert
  rw [Assoc.get?_alter, if_pos rfl]
  rfl

theorem entered_enterVariant
    (n : Numbering)
    (state upper image : String)
    (id : RegexId)
    {state' image' : String}
    (hEntered : Entered n.session state' image') :
    Entered (n.enterVariant state upper image id).session
      state' image' := by
  rcases hEntered with ⟨variants, hGet, hImage⟩
  unfold Entered Numbering.enterVariant
  dsimp only
  rw [Assoc.get?_alter]
  by_cases hState : state' = state
  · subst hState
    rw [if_pos rfl, Option.getD_some, Assoc.get?_alter]
    by_cases hUpper : Text.upperText image' = upper
    · rw [if_pos hUpper]
      refine ⟨_, rfl, ?_⟩
      rw [← hUpper, hGet, Option.getD_some]
      unfold Assoc.insert
      rw [Assoc.get?_alter]
      split
      · rfl
      · exact hImage
    · rw [if_neg hUpper]
      exact ⟨variants, hGet, hImage⟩
  · rw [if_neg hState]
    exact ⟨variants, hGet, hImage⟩

------------------------------------------------------------
-- What numbering one entry changes
------------------------------------------------------------

/- The kind of a token expression so far. -/
def Numbering.kindOf
    (n : Numbering)
    (id : RegexId) : Kind :=
  (n.grammar.regex id).kind

/- All kinds so far have been given out. -/
def Numbering.Bounded
    (n : Numbering) : Prop :=
  ∀ id, n.kindOf id < n.session.tokenCount

/-
  What stays when one token expression is numbered: the other
  expressions, the sections, and what has been entered.
-/
structure Numbering.Moves
    (id : RegexId)
    (n n' : Numbering) : Prop where
  sections : n'.grammar.sections = n.grammar.sections
  states : n'.grammar.lexicalStates = n.grammar.lexicalStates
  others :
    ∀ r, r ≠ id → n'.grammar.regex r = n.grammar.regex r
  form :
    (n'.grammar.regex id).form = (n.grammar.regex id).form
  entered :
    ∀ state image, Entered n.session state image →
      Entered n'.session state image
  marked : ∀ pos ∈ n.marked, pos ∈ n'.marked
  count : n.session.tokenCount ≤ n'.session.tokenCount
  bounded : n.Bounded → n'.Bounded

theorem Numbering.Moves.refl
    (id : RegexId)
    (n : Numbering) :
    Moves id n n :=
  ⟨rfl, rfl, fun _ _ => rfl, rfl, fun _ _ h => h,
    fun _ h => h, le_rfl, fun h => h⟩

theorem Numbering.Moves.trans
    {id : RegexId}
    {n n' n'' : Numbering}
    (hFirst : Moves id n n')
    (hSecond : Moves id n' n'') :
    Moves id n n'' where
  sections := hSecond.sections.trans hFirst.sections
  states := hSecond.states.trans hFirst.states
  others r hr :=
    (hSecond.others r hr).trans (hFirst.others r hr)
  form := hSecond.form.trans hFirst.form
  entered state image h :=
    hSecond.entered state image (hFirst.entered state image h)
  marked pos h := hSecond.marked pos (hFirst.marked pos h)
  count := hFirst.count.trans hSecond.count
  bounded h := hSecond.bounded (hFirst.bounded h)

/- A token expression keeps its kind or gets a new one. -/
def Numbering.Owns
    (id : RegexId)
    (n n' : Numbering) : Prop :=
  n'.kindOf id = n.kindOf id ∨
    n.session.tokenCount ≤ n'.kindOf id

theorem Numbering.Owns.trans
    {id : RegexId}
    {n n' n'' : Numbering}
    (hCount : n.session.tokenCount ≤ n'.session.tokenCount)
    (hFirst : Owns id n n')
    (hSecond : Owns id n' n'') :
    Owns id n n'' := by
  rcases hSecond with hSame | hNew
  · rcases hFirst with hSame' | hNew'
    · exact .inl (hSame.trans hSame')
    · exact .inr (hNew'.trans_eq hSame.symm)
  · exact .inr (hCount.trans hNew)

/- Give a token expression a kind that has been given out. -/
theorem moves_modifyRegex
    (n : Numbering)
    (id : RegexId)
    {kind : Kind}
    (s : Session)
    (marked : List SpecPos)
    (hEntered : s.simpleTokens = n.session.simpleTokens)
    (hCount : n.session.tokenCount ≤ s.tokenCount)
    (hKind : n.Bounded → kind < s.tokenCount)
    (hMarked : ∀ pos ∈ n.marked, pos ∈ marked) :
    n.Moves id
      { grammar := n.grammar.modifyRegex id fun r =>
          { r with kind := kind },
        session := s, marked := marked } := by
  have hRegex := n.grammar.regex_modifyRegex id
    fun r => { r with kind := kind }
  refine ⟨rfl, rfl, ?_, ?_, ?_, hMarked, hCount, ?_⟩
  · intro r hr
    rw [hRegex, if_neg fun h => hr h.1]
  · rw [hRegex]
    split <;> rfl
  · rintro state image ⟨variants, hGet, hImage⟩
    refine ⟨variants, ?_, hImage⟩
    rw [hEntered]
    exact hGet
  · intro hBounded r
    unfold Numbering.kindOf
    rw [hRegex]
    split
    · exact hKind hBounded
    · exact (hBounded r).trans_le hCount

theorem moves_takeKind
    (n : Numbering)
    (id : RegexId) :
    n.Moves id (n.takeKind id) :=
  moves_modifyRegex n id _ _ rfl (Nat.le_succ _)
    (fun _ => Nat.lt_succ_self _) fun _ h => h

theorem owns_takeKind
    (n : Numbering)
    (id : RegexId) :
    n.Owns id (n.takeKind id) := by
  unfold Numbering.Owns Numbering.kindOf Numbering.takeKind
  dsimp only
  rw [Grammar.regex_modifyRegex]
  split
  · exact .inr le_rfl
  · exact .inl rfl

theorem moves_takeKindOnce
    (n : Numbering)
    (id : RegexId) :
    n.Moves id (n.takeKindOnce id) ∧
      n.Owns id (n.takeKindOnce id) := by
  unfold Numbering.takeKindOnce
  split
  · exact ⟨moves_takeKind n id, owns_takeKind n id⟩
  · exact ⟨.refl id n, .inl rfl⟩

theorem moves_enterVariant
    (n : Numbering)
    (id : RegexId)
    (state upper image : String) :
    n.Moves id (n.enterVariant state upper image id) ∧
      n.Owns id (n.enterVariant state upper image id) := by
  refine ⟨⟨rfl, rfl, fun _ _ => rfl, rfl, ?_, fun _ h => h,
    le_rfl, fun h => h⟩, .inl rfl⟩
  intro state' image' h
  exact entered_enterVariant n state upper image id h

/-
  Numbering a literal in some of its states without error: it
  is dropped, or it is entered there, and if it regards case
  no other literal had been entered with its text.
-/
structure LiteralNumbered
    (sec : TokenSection)
    (image : String)
    (id : RegexId)
    (pos : SpecPos)
    (states : List String)
    (n n' : Numbering) : Prop where
  clean : n.session.Clean
  moves : n.Moves id n'
  owns : pos ∉ n'.marked → n.Owns id n'
  entered :
    pos ∉ n'.marked → ∀ state ∈ states,
      Entered n'.session state image
  absent :
    pos ∉ n'.marked → sec.ignoreCase = false →
      ∀ state ∈ states, ¬ Entered n.session state image

theorem numbered_enter
    {sec : TokenSection}
    {image : String}
    {id : RegexId}
    {pos : SpecPos}
    {n : Numbering}
    {state : String}
    (hClean : n.session.Clean)
    (hAbsent : sec.ignoreCase = false →
      ¬ Entered n.session state image) :
    LiteralNumbered sec image id pos [state] n
      ((n.takeKindOnce id).enterVariant state
        (Text.upperText image) image id) := by
  rcases moves_takeKindOnce n id with ⟨hTake, hOwns⟩
  rcases moves_enterVariant (n.takeKindOnce id) id state
      (Text.upperText image) image with ⟨hEnter, hOwns'⟩
  refine ⟨hClean, hTake.trans hEnter,
    fun _ => hOwns.trans hTake.count hOwns', ?_, ?_⟩
  · intro _ state' hState
    rw [List.mem_singleton.mp hState]
    exact entered_enterVariant_self _ state image id
  · intro _ hCase state' hState
    rw [List.mem_singleton.mp hState]
    exact hAbsent hCase

theorem clean_enter
    {n : Numbering}
    {id : RegexId}
    {state upper image : String}
    (hClean : ((n.takeKindOnce id).enterVariant state upper
      image id).session.Clean) :
    n.session.Clean := by
  unfold Numbering.takeKindOnce at hClean
  split at hClean <;> exact hClean

/- A known text shares its kind, and its entry is dropped. -/
theorem numberRepeated_of_clean
    {n : Numbering}
    {sec : TokenSection}
    {state image : String}
    {id existing : RegexId}
    {pos : SpecPos}
    (hClean : (numberRepeated n sec state image id existing
      pos).session.Clean) :
    sec.explicit = false ∧
      numberRepeated n sec state image id existing pos =
        { n with
          grammar := n.grammar.modifyRegex id fun r =>
            { r with kind := (n.grammar.regex existing).kind },
          marked := pos :: n.marked } := by
  unfold numberRepeated at hClean ⊢
  dsimp only at hClean ⊢
  split at hClean
  · exact absurd hClean (Session.not_clean_error _ _ _)
  split at hClean
  · exact absurd hClean (Session.not_clean_error _ _ _)
  split at hClean
  · exact absurd hClean (Session.not_clean_error _ _ _)
  next hExplicit hToken hPrivate =>
    rw [if_neg hExplicit, if_neg hToken, if_neg hPrivate]
    exact ⟨by simpa using hExplicit, rfl⟩

/-
  A literal is entered if its text is not known, or if it
  ignores case, and that with a warning; else its text is that
  of a literal that regards case.
-/
theorem numberLiteral_of_clean
    {sec : TokenSection}
    {image : String}
    {id : RegexId}
    {pos : SpecPos}
    {n : Numbering}
    {state : String}
    (hClean : (numberLiteral sec image id pos n
      state).session.Clean) :
    (∃ warned : Numbering,
        numberLiteral sec image id pos n state =
          (warned.takeKindOnce id).enterVariant state
            (Text.upperText image) image id ∧
        (warned = n ∧ entry? n.session state image = none ∨
          sec.ignoreCase = true ∧ ∃ place message,
            warned =
              { n with
                session :=
                  n.session.warning place message })) ∨
      ∃ existing, entry? n.session state image = some existing ∧
        ignoresCase n.grammar existing = false ∧
        numberLiteral sec image id pos n state =
          numberRepeated n sec state image id existing pos := by
  have hEntry : entry? n.session state image =
      (Assoc.get? (Text.upperText image)
        ((Assoc.get? state n.session.simpleTokens).getD
          [])).bind (Assoc.get? image) := rfl
  unfold numberLiteral at hClean ⊢
  dsimp only at hClean ⊢
  cases hTable : Assoc.get? (Text.upperText image)
      ((Assoc.get? state n.session.simpleTokens).getD []) with
  | none =>
      rw [hTable] at hEntry
      exact .inl ⟨n, rfl, .inl ⟨rfl, hEntry⟩⟩
  | some variants =>
      rw [hTable, Option.bind_some] at hEntry
      rw [hTable] at hClean
      dsimp only at hClean ⊢
      cases hCovering :
          coveringLiteral? n.grammar variants image with
      | some other =>
          rw [hCovering] at hClean
          exact absurd hClean (Session.not_clean_error _ _ _)
      | none =>
          dsimp only
          by_cases hCase : sec.ignoreCase = true
          · rw [if_pos hCase]
            exact .inl ⟨_, rfl, .inr ⟨hCase, _, _, rfl⟩⟩
          · rw [if_neg hCase]
            cases hImage : Assoc.get? image variants with
            | some existing =>
                exact .inr ⟨existing, hEntry.trans hImage,
                  not_ignoresCase_of_not_covered hImage
                    hCovering, rfl⟩
            | none =>
                exact .inl ⟨n, rfl,
                  .inl ⟨rfl, hEntry.trans hImage⟩⟩

/- A known text is an error, or its entry is dropped. -/
theorem numbered_numberRepeated
    {n : Numbering}
    {sec : TokenSection}
    {state image : String}
    {id existing : RegexId}
    {pos : SpecPos}
    (hClean : (numberRepeated n sec state image id existing
      pos).session.Clean) :
    LiteralNumbered sec image id pos [state] n
      (numberRepeated n sec state image id existing pos) := by
  rcases numberRepeated_of_clean hClean with ⟨-, hSame⟩
  rw [hSame] at hClean ⊢
  have hMarked : pos ∈ pos :: n.marked := List.mem_cons_self
  refine ⟨hClean, ?_, fun h => absurd hMarked h,
    fun h => absurd hMarked h, fun h => absurd hMarked h⟩
  exact moves_modifyRegex n id _ _ rfl le_rfl
    (fun hBounded => hBounded existing)
    fun p hp => List.mem_cons_of_mem _ hp

theorem numbered_numberLiteral
    {sec : TokenSection}
    {image : String}
    {id : RegexId}
    {pos : SpecPos}
    {n : Numbering}
    {state : String}
    (hClean : (numberLiteral sec image id pos n
      state).session.Clean) :
    LiteralNumbered sec image id pos [state] n
      (numberLiteral sec image id pos n state) := by
  rcases numberLiteral_of_clean hClean with
    ⟨warned, hSame, ⟨rfl, hUnknown⟩ | ⟨hCase, hWarned⟩⟩ |
    ⟨existing, -, -, hSame⟩
  · rw [hSame] at hClean ⊢
    refine numbered_enter (clean_enter hClean) fun _ => ?_
    rw [entered_iff]
    exact not_not.mpr hUnknown
  · rcases hWarned with ⟨place, message, rfl⟩
    rw [hSame] at hClean ⊢
    have hEnter := @numbered_enter sec image id pos
      { n with session := n.session.warning place message }
      state (clean_enter hClean)
      (fun h => by rw [hCase] at h; cases h)
    have hWarns : n.Moves id
        { n with
          session := n.session.warning place message } :=
      ⟨rfl, rfl, fun _ _ => rfl, rfl, fun _ _ h => h,
        fun _ h => h, le_rfl, fun h => h⟩
    exact ⟨(Session.clean_warning _ _ _).mp hEnter.clean,
      hWarns.trans hEnter.moves, hEnter.owns, hEnter.entered,
      hEnter.absent⟩
  · rw [hSame] at hClean ⊢
    exact numbered_numberRepeated hClean

/- Numbering a literal in all its states. -/
theorem numbered_foldl
    {sec : TokenSection}
    {image : String}
    {id : RegexId}
    {pos : SpecPos}
    (states : List String)
    {n : Numbering}
    (hClean : (states.foldl (numberLiteral sec image id pos)
      n).session.Clean) :
    LiteralNumbered sec image id pos states n
      (states.foldl (numberLiteral sec image id pos) n) := by
  induction states generalizing n with
  | nil =>
      refine ⟨hClean, .refl id n, fun _ => .inl rfl, ?_, ?_⟩
      · intro _ state hState
        cases hState
      · intro _ _ state hState
        cases hState
  | cons state states ih =>
      rw [List.foldl_cons] at hClean ⊢
      have hRest := ih hClean
      have hFirst := numbered_numberLiteral hRest.clean
      have hUnmarked : ∀ {n'' : Numbering},
          (numberLiteral sec image id pos n state).Moves id n'' →
          pos ∉ n''.marked →
          pos ∉ (numberLiteral sec image id pos n
            state).marked :=
        fun hMoves hNot hMem => hNot (hMoves.marked pos hMem)
      refine ⟨hFirst.clean, hFirst.moves.trans hRest.moves,
        ?_, ?_, ?_⟩
      · intro hNot
        have hNot' := hUnmarked hRest.moves hNot
        exact (hFirst.owns hNot').trans hFirst.moves.count
          (hRest.owns hNot)
      · intro hNot state' hState
        rcases List.mem_cons.mp hState with rfl | hState
        · exact hRest.moves.entered _ _
            (hFirst.entered (hUnmarked hRest.moves hNot) _
              (List.mem_singleton_self _))
        · exact hRest.entered hNot state' hState
      · intro hNot hCase state' hState
        rcases List.mem_cons.mp hState with rfl | hState
        · exact hFirst.absent (hUnmarked hRest.moves hNot)
            hCase _ (List.mem_singleton_self _)
        · intro hBefore
          exact hRest.absent hNot hCase state' hState
            (hFirst.moves.entered _ _ hBefore)

------------------------------------------------------------
-- Numbering entry after entry
------------------------------------------------------------

/- An entry with its section and its place. -/
abbrev Item :=
  TokenSection × TokenSpec × SpecPos

/- The entry of an item. -/
def Item.entry
    (e : Item) : TokenSection × TokenSpec :=
  (e.1, e.2.1)

/- The items that are not dropped. -/
def unmarked
    (marked : List SpecPos)
    (items : List Item) : List Item :=
  items.filter fun e => !marked.contains e.2.2

theorem mem_unmarked
    {marked : List SpecPos}
    {items : List Item}
    {e : Item} :
    e ∈ unmarked marked items ↔
      e ∈ items ∧ e.2.2 ∉ marked := by
  simp [unmarked]

/- What holds once some items have been numbered. -/
structure Numbered
    (n : Numbering)
    (items : List Item) : Prop where
  bounded : n.Bounded
  fresh :
    ∀ r, r ∉ items.map (·.2.1.regex) → n.kindOf r = 0
  entered :
    ∀ e ∈ unmarked n.marked items, e.1.ignoreCase = false →
      ∀ image,
        (n.grammar.regex e.2.1.regex).form = .literal image →
        ∀ state ∈ n.grammar.statesIn e.1,
          Entered n.session state image
  apart :
    (unmarked n.marked items).Pairwise fun e e' =>
      n.grammar.Apart e.entry e'.entry

theorem unmarked_sublist
    {marked marked' : List SpecPos}
    (hMore : ∀ pos ∈ marked, pos ∈ marked')
    (items : List Item) :
    (unmarked marked' items).Sublist
      (unmarked marked items) := by
  refine List.monotone_filter_right items ?_
  intro e he
  simp only [Bool.not_eq_true', List.contains_eq_mem,
    decide_eq_false_iff_not] at he ⊢
  exact fun hMem => he (hMore _ hMem)

/- Entries that do not speak of an expression stay apart. -/
theorem apart_of_moves
    {n n' : Numbering}
    {id : RegexId}
    (hMoves : n.Moves id n')
    {e e' : TokenSection × TokenSpec}
    (hFirst : e.2.regex ≠ id)
    (hSecond : e'.2.regex ≠ id)
    (hApart : n.grammar.Apart e e') :
    n'.grammar.Apart e e' := by
  have hStates : ∀ sec, n'.grammar.statesIn sec =
      n.grammar.statesIn sec := by
    intro sec
    unfold Grammar.statesIn
    rw [hMoves.states]
  constructor
  · rw [hMoves.others _ hFirst, hMoves.others _ hSecond]
    exact hApart.kinds
  · rw [hMoves.others _ hFirst, hMoves.others _ hSecond,
      hStates, hStates]
    exact hApart.literals

/- Nothing has been numbered. -/
theorem numbered_nil
    {g : Grammar}
    (hFresh : ∀ id, (g.regex id).kind = 0)
    {tables : Assoc String (Assoc String Variants)}
    {s : Session} :
    Numbered
      { grammar := g,
        session :=
          { s with tokenCount := 1, simpleTokens := tables } }
      [] := by
  refine ⟨?_, fun r _ => hFresh r, ?_, .nil⟩
  · intro id
    change (g.regex id).kind < 1
    rw [hFresh]
    exact Nat.one_pos
  · intro e he
    cases (mem_unmarked.mp he).1

/-
  One more item.  Its kind is new, and the text of a literal
  with regard to case had not been entered in its states.
-/
theorem Numbered.snoc
    {n n' : Numbering}
    {items : List Item}
    (hNumbered : Numbered n items)
    {sec : TokenSection}
    {spec : TokenSpec}
    {pos : SpecPos}
    (hNew : spec.regex ∉ items.map (·.2.1.regex))
    (hMoves : n.Moves spec.regex n')
    (hOwns : pos ∉ n'.marked → n.Owns spec.regex n')
    (hLiteral :
      pos ∉ n'.marked → sec.ignoreCase = false →
      ∀ image,
        (n.grammar.regex spec.regex).form = .literal image →
        ∀ state ∈ n.grammar.statesIn sec,
          Entered n'.session state image ∧
            ¬ Entered n.session state image) :
    Numbered n' (items ++ [(sec, spec, pos)]) := by
  have hStates : ∀ sec, n'.grammar.statesIn sec =
      n.grammar.statesIn sec := by
    intro sec
    unfold Grammar.statesIn
    rw [hMoves.states]
  have hOther : ∀ e ∈ items, e.2.1.regex ≠ spec.regex := by
    rintro e he hSame
    exact hNew (hSame ▸ List.mem_map_of_mem he)
  have hFewer := unmarked_sublist hMoves.marked items
  have hSplit : unmarked n'.marked (items ++ [(sec, spec, pos)]) =
      unmarked n'.marked items ++
        unmarked n'.marked [(sec, spec, pos)] := by
    unfold unmarked
    rw [List.filter_append]
  refine ⟨hMoves.bounded hNumbered.bounded, ?_, ?_, ?_⟩
  · intro r hr
    rw [List.map_append, List.mem_append, not_or] at hr
    have hNe : r ≠ spec.regex := by
      simpa using hr.2
    unfold Numbering.kindOf
    rw [hMoves.others r hNe]
    exact hNumbered.fresh r hr.1
  · intro e he hCase image hForm state hState
    rw [hStates] at hState
    rw [hSplit, List.mem_append] at he
    rcases he with he | he
    · have hItem := (mem_unmarked.mp he).1
      rw [hMoves.others _ (hOther e hItem)] at hForm
      exact hMoves.entered _ _ (hNumbered.entered e
        (hFewer.mem he) hCase image hForm state hState)
    · rcases mem_unmarked.mp he with ⟨hMem, hNot⟩
      rw [List.mem_singleton] at hMem
      subst hMem
      rw [hMoves.form] at hForm
      exact (hLiteral hNot hCase image hForm state hState).1
  · rw [hSplit, List.pairwise_append]
    refine ⟨?_, ?_, ?_⟩
    · refine List.Pairwise.imp_of_mem ?_
        (hNumbered.apart.sublist hFewer)
      intro e e' he he' hApart
      exact apart_of_moves hMoves
        (hOther e (mem_unmarked.mp he).1)
        (hOther e' (mem_unmarked.mp he').1) hApart
    · refine List.Pairwise.sublist List.filter_sublist ?_
      exact List.pairwise_singleton _ _
    · intro e he e' he'
      rcases mem_unmarked.mp he' with ⟨hMem, hNot⟩
      rw [List.mem_singleton] at hMem
      subst hMem
      have hItem := (mem_unmarked.mp he).1
      have hNe := hOther e hItem
      constructor
      · -- The kind is larger than all before it, or none.
        intro hSame
        change (n'.grammar.regex e.2.1.regex).kind =
          n'.kindOf spec.regex at hSame
        change n'.kindOf spec.regex = 0
        rw [hMoves.others _ hNe] at hSame
        have hZero := hNumbered.fresh spec.regex hNew
        rcases hOwns hNot with hKept | hLarge
        · rw [hKept, hZero]
        · have hBelow := hNumbered.bounded e.2.1.regex
          change (n.grammar.regex e.2.1.regex).kind < _
            at hBelow
          rw [hSame] at hBelow
          exact absurd hBelow (not_lt.mpr hLarge)
      · intro image hForm hForm' hCase hCase' state hState hState'
        change (n'.grammar.regex e.2.1.regex).form = _ at hForm
        change (n'.grammar.regex spec.regex).form = _ at hForm'
        rw [hMoves.others _ hNe] at hForm
        rw [hMoves.form] at hForm'
        rw [hStates] at hState hState'
        exact (hLiteral hNot hCase' image hForm' state
          hState').2 (hNumbered.entered e (hFewer.mem he)
            hCase image hForm state hState)

theorem moves_enterKind
    (n : Numbering)
    (id : RegexId) :
    n.Moves id (enterKind n id) :=
  ⟨rfl, rfl, fun _ _ => rfl, rfl, fun _ _ h => h,
    fun _ h => h, le_rfl, fun h => h⟩

/- Numbering one item without error. -/
theorem numbered_numberSpec
    {n : Numbering}
    {sec : TokenSection}
    {states : List String}
    {spec : TokenSpec}
    {pos : SpecPos}
    (hClean : (numberSpec sec states n
      (spec, pos)).session.Clean) :
    n.session.Clean ∧
      n.Moves spec.regex
        (numberSpec sec states n (spec, pos)) ∧
      (∀ {items : List Item}, n.grammar.statesIn sec = states →
        spec.regex ∉ items.map (·.2.1.regex) →
        Numbered n items →
        Numbered (numberSpec sec states n (spec, pos))
          (items ++ [(sec, spec, pos)])) := by
  have hOther : ∀ n' : Numbering, n.Moves spec.regex n' →
      n.Owns spec.regex n' →
      (∀ image, (n.grammar.regex spec.regex).form ≠
        .literal image) →
      n.Moves spec.regex n' ∧
        (∀ {items : List Item},
          n.grammar.statesIn sec = states →
          spec.regex ∉ items.map (·.2.1.regex) →
          Numbered n items →
          Numbered n' (items ++ [(sec, spec, pos)])) := by
    intro n' hMoves hOwns hForm
    refine ⟨hMoves, fun _ hNew hNumbered =>
      hNumbered.snoc hNew hMoves (fun _ => hOwns) ?_⟩
    intro _ _ image hLiteral
    exact absurd hLiteral (hForm image)
  have hTaken : n.Moves spec.regex
      (enterKind (n.takeKind spec.regex) spec.regex) :=
    (moves_takeKind n spec.regex).trans (moves_enterKind _ _)
  have hOwned : n.Owns spec.regex
      (enterKind (n.takeKind spec.regex) spec.regex) :=
    owns_takeKind n spec.regex
  unfold numberSpec at hClean ⊢
  dsimp only at hClean ⊢
  cases hForm : (n.grammar.regex spec.regex).form with
  | literal image =>
      rw [hForm] at hClean
      dsimp only at hClean ⊢
      have hFold : LiteralNumbered sec image spec.regex pos
          states n
          (states.foldl
            (numberLiteral sec image spec.regex pos) n) :=
        numbered_foldl states hClean
      have hMoves := hFold.moves.trans
        (moves_enterKind _ spec.regex)
      refine ⟨hFold.clean, hMoves, fun hStates hNew hNumbered =>
        hNumbered.snoc hNew hMoves hFold.owns ?_⟩
      intro hNot hCase image' hImage state hState
      rw [hForm] at hImage
      cases hImage
      rw [hStates] at hState
      exact ⟨hFold.entered hNot state hState,
        hFold.absent hNot hCase state hState⟩
  | reference name target =>
      rw [hForm] at hClean
      exact ⟨hClean, hOther n (.refl _ n) (.inl rfl)
        (fun image h => by rw [hForm] at h; cases h)⟩
  | _ =>
      rw [hForm] at hClean
      exact ⟨hClean, hOther _ hTaken hOwned
        (fun image h => by rw [hForm] at h; cases h)⟩

------------------------------------------------------------
-- Numbering section after section
------------------------------------------------------------

/- What numbering leaves of a grammar: all but the kinds. -/
structure Leaves
    (g g' : Grammar) : Prop where
  sections : g'.sections = g.sections
  states : g'.lexicalStates = g.lexicalStates
  forms : ∀ id, (g'.regex id).form = (g.regex id).form

theorem Leaves.refl
    (g : Grammar) :
    Leaves g g :=
  ⟨rfl, rfl, fun _ => rfl⟩

theorem Leaves.trans
    {g g' g'' : Grammar}
    (hFirst : Leaves g g')
    (hSecond : Leaves g' g'') :
    Leaves g g'' where
  sections := hSecond.sections.trans hFirst.sections
  states := hSecond.states.trans hFirst.states
  forms id := (hSecond.forms id).trans (hFirst.forms id)

theorem Numbering.Moves.leaves
    {id : RegexId}
    {n n' : Numbering}
    (hMoves : Moves id n n') :
    Leaves n.grammar n'.grammar where
  sections := hMoves.sections
  states := hMoves.states
  forms r := by
    by_cases hSame : r = id
    · rw [hSame]
      exact hMoves.form
    · rw [hMoves.others r hSame]

/- The items of a section. -/
def itemsOf
    (sec : TokenSection)
    (i : SectionId) : List Item :=
  sec.specs.zipIdx.map fun e => (sec, e.1, (i, e.2))

theorem allSpecs_eq
    (g : Grammar) :
    allSpecs g =
      g.sections.toList.zipIdx.flatMap fun e =>
        itemsOf e.1 e.2 :=
  rfl

theorem map_regex_itemsOf
    (sec : TokenSection)
    (i : SectionId) :
    (itemsOf sec i).map (·.2.1.regex) =
      sec.specs.map (·.regex) := by
  unfold itemsOf
  rw [List.map_map]
  change sec.specs.zipIdx.map ((·.regex) ∘ Prod.fst) = _
  rw [← List.map_map, List.zipIdx_map_fst]

/- Numbering the items of one section without error. -/
theorem leaves_foldl_numberSpec
    {sec : TokenSection}
    {states : List String}
    (specs : List (TokenSpec × SpecPos))
    {n : Numbering}
    (hClean : (specs.foldl (numberSpec sec states)
      n).session.Clean) :
    n.session.Clean ∧
      Leaves n.grammar
        (specs.foldl (numberSpec sec states) n).grammar := by
  induction specs generalizing n with
  | nil => exact ⟨hClean, .refl _⟩
  | cons e specs ih =>
      rw [List.foldl_cons] at hClean ⊢
      rcases ih hClean with ⟨hCleanHere, hLeaves⟩
      rcases numbered_numberSpec hCleanHere with
        ⟨hCleanBefore, hMoves, -⟩
      exact ⟨hCleanBefore, hMoves.leaves.trans hLeaves⟩

/- A section with its states written out. -/
def settled
    (g : Grammar)
    (sec : TokenSection) : TokenSection :=
  { sec with states := some (g.statesIn sec) }

/- The items of the first sections. -/
def itemsBefore
    (g : Grammar)
    (i : Nat) : List Item :=
  (((g.sections.toList.take i).map (settled g)).zipIdx).flatMap
    fun e => itemsOf e.1 e.2

/- The expressions that are listed in sections. -/
def listed
    (g : Grammar) : List RegexId :=
  g.sections.toList.flatMap fun sec => sec.specs.map (·.regex)

theorem map_regex_itemsBefore
    (g : Grammar)
    (i : Nat) :
    (itemsBefore g i).map (·.2.1.regex) =
      (g.sections.toList.take i).flatMap fun sec =>
        sec.specs.map (·.regex) := by
  unfold itemsBefore
  rw [List.map_flatMap]
  simp only [map_regex_itemsOf]
  have hFirst : ∀ secs : List TokenSection, ∀ k,
      (secs.zipIdx k).flatMap
          (fun e => e.1.specs.map (·.regex)) =
        secs.flatMap fun sec => sec.specs.map (·.regex) := by
    intro secs k
    have hMap := List.flatMap_map Prod.fst
      (fun sec : TokenSection => sec.specs.map (·.regex))
      (secs.zipIdx k)
    rw [List.zipIdx_map_fst] at hMap
    exact hMap.symm
  rw [hFirst, List.flatMap_map]
  rfl

/- The items of all sections are what is listed. -/
theorem map_regex_allItems
    (g : Grammar) :
    (itemsBefore g g.sections.size).map (·.2.1.regex) =
      listed g := by
  rw [map_regex_itemsBefore, List.take_of_length_le (by simp)]
  rfl

theorem itemsBefore_succ
    (g : Grammar)
    {i : Nat}
    {sec : TokenSection}
    (hSection : g.sections[i]? = some sec) :
    itemsBefore g (i + 1) =
      itemsBefore g i ++ itemsOf (settled g sec) i := by
  have hGet : g.sections.toList[i]? = some sec := by
    rwa [Array.getElem?_toList]
  have hInside := (List.getElem?_eq_some_iff.mp hGet).1
  unfold itemsBefore
  rw [List.take_add_one, hGet, List.map_append,
    List.zipIdx_append, List.flatMap_append]
  congr 1
  rw [List.length_map, List.length_take,
    min_eq_left hInside.le, Nat.zero_add]
  simp

/- The first sections of a grammar have been settled. -/
structure SettledBefore
    (g : Grammar)
    (i : Nat)
    (g' : Grammar) : Prop where
  sections :
    ∀ k, g'.sections[k]? =
      (g.sections[k]?).map fun sec =>
        if k < i then settled g sec else sec
  states : g'.lexicalStates = g.lexicalStates
  forms : ∀ id, (g'.regex id).form = (g.regex id).form

/-
  A property of the numbering of a grammar that every section
  and every one of its items keeps up.
-/
structure Sustained
    (g : Grammar)
    (P : Numbering → List Item → Prop) : Prop where
  settle :
    ∀ {n : Numbering} {items : List Item} (i : SectionId),
      P n items →
      P { n with
          grammar := n.grammar.modifySection i fun sec =>
            { sec with
              states := some (n.grammar.statesOf i) } } items
  step :
    ∀ {n : Numbering} {items : List Item} {sec : TokenSection}
      {states : List String} {spec : TokenSpec} {pos : SpecPos},
      (sec, spec, pos) ∈ itemsBefore g g.sections.size →
      sec.states = some states →
      spec.regex ∉ items.map (·.2.1.regex) →
      (numberSpec sec states n (spec, pos)).session.Clean →
      P n items →
      P (numberSpec sec states n (spec, pos))
        (items ++ [(sec, spec, pos)])

theorem Sustained.foldl_numberSpec
    {g : Grammar}
    {P : Numbering → List Item → Prop}
    (hSustained : Sustained g P)
    {sec : TokenSection}
    {states : List String}
    (hStates : sec.states = some states)
    (specs : List (TokenSpec × SpecPos))
    (hItems : ∀ e ∈ specs,
      (sec, e.1, e.2) ∈ itemsBefore g g.sections.size)
    {n : Numbering}
    {items : List Item}
    (hListed : (items.map (·.2.1.regex) ++
      specs.map (·.1.regex)).Nodup)
    (hClean : (specs.foldl (numberSpec sec states)
      n).session.Clean)
    (hBefore : P n items) :
    P (specs.foldl (numberSpec sec states) n)
      (items ++ specs.map fun e => (sec, e.1, e.2)) := by
  induction specs generalizing n items with
  | nil => rwa [List.map_nil, List.append_nil]
  | cons e specs ih =>
      rcases e with ⟨spec, pos⟩
      have hNew : spec.regex ∉ items.map (·.2.1.regex) := by
        intro hMem
        have hApart := (List.nodup_append.mp hListed).2.2
        exact hApart _ hMem _ List.mem_cons_self rfl
      have hShift : items.map (·.2.1.regex) ++
          ((spec, pos) :: specs).map (·.1.regex) =
            (items ++ [(sec, spec, pos)]).map
              (·.2.1.regex) ++ specs.map (·.1.regex) := by
        simp
      rw [hShift] at hListed
      rw [List.foldl_cons] at hClean ⊢
      have hFirst := hSustained.step
        (hItems _ List.mem_cons_self) hStates hNew
        (leaves_foldl_numberSpec _ hClean).1 hBefore
      have hAfter := ih
        (fun e he => hItems e (List.mem_cons_of_mem _ he))
        hListed hClean hFirst
      rwa [List.append_assoc] at hAfter

theorem itemsBefore_mono
    (g : Grammar)
    {i k : Nat}
    (hLess : i ≤ k) :
    ∀ e ∈ itemsBefore g i, e ∈ itemsBefore g k := by
  have hBegins : (g.sections.toList.take i).map (settled g) <+:
      (g.sections.toList.take k).map (settled g) :=
    (List.take_prefix_take_left hLess).map _
  rcases hBegins with ⟨rest, hSplit⟩
  intro e he
  unfold itemsBefore at he ⊢
  rw [← hSplit, List.zipIdx_append, List.flatMap_append]
  exact List.mem_append_left _ he

/- Numbering one section without error. -/
theorem sustained_numberSection
    {g : Grammar}
    {i : Nat}
    (hInside : i < g.sections.size)
    {n : Numbering}
    (hClean : (numberSection n i).session.Clean) :
    n.session.Clean ∧
      (SettledBefore g i n.grammar →
        SettledBefore g (i + 1)
            (numberSection n i).grammar ∧
          ∀ {P : Numbering → List Item → Prop},
            Sustained g P → (listed g).Nodup →
            P n (itemsBefore g i) →
            P (numberSection n i) (itemsBefore g (i + 1))) := by
  have hSection : g.sections[i]? = some g.sections[i] :=
    Array.getElem?_eq_getElem hInside
  generalize g.sections[i] = sec at hSection
  unfold numberSection at hClean ⊢
  dsimp only at hClean ⊢
  rcases leaves_foldl_numberSpec _ hClean with
    ⟨hCleanBefore, hLeaves⟩
  refine ⟨hCleanBefore, fun hSettled => ?_⟩
  have hHere : n.grammar.sections[i]? = some sec := by
    rw [hSettled.sections, hSection, Option.map_some,
      if_neg (Nat.lt_irrefl i)]
  have hStates : n.grammar.statesOf i = g.statesIn sec := by
    unfold Grammar.statesOf Grammar.tokenSection Grammar.statesIn
    rw [Array.getD_eq_getD_getElem?, hHere, hSettled.states]
    rfl
  let g' := n.grammar.modifySection i fun sec =>
    { sec with states := some (n.grammar.statesOf i) }
  have hSections : ∀ k, g'.sections[k]? =
      (g.sections[k]?).map fun sec =>
        if k < i + 1 then settled g sec else sec := by
    intro k
    change (n.grammar.sections.modify i _)[k]? = _
    rw [Array.getElem?_modify, hSettled.sections]
    by_cases hSame : i = k
    · subst hSame
      rw [if_pos rfl, hSection]
      simp only [Option.map_some, Nat.lt_irrefl, if_false,
        Nat.lt_succ_self, if_true, hStates]
      rfl
    · rw [if_neg hSame]
      have hLess : k < i + 1 ↔ k < i := by omega
      simp only [hLess]
  have hSec : g'.tokenSection i = settled g sec := by
    unfold Grammar.tokenSection
    rw [Array.getD_eq_getD_getElem?, hSections, hSection,
      Option.map_some, if_pos (Nat.lt_succ_self i)]
    rfl
  refine ⟨⟨?_, hLeaves.states.trans hSettled.states, ?_⟩, ?_⟩
  · intro k
    rw [hLeaves.sections]
    exact hSections k
  · intro id
    exact (hLeaves.forms id).trans (hSettled.forms id)
  · intro P hSustained hListed hBefore
    have hItems : ((g'.tokenSection i).specs.zipIdx.map
        fun e => (e.1, (i, e.2))).map
          (fun e => (g'.tokenSection i, e.1, e.2)) =
            itemsOf (settled g sec) i := by
      rw [List.map_map, hSec]
      rfl
    have hRegexes : ((g'.tokenSection i).specs.zipIdx.map
        fun e => (e.1, (i, e.2))).map (·.1.regex) =
          (itemsOf (settled g sec) i).map (·.2.1.regex) := by
      rw [← hItems]
      simp only [List.map_map]
      rfl
    have hNodup : ((itemsBefore g (i + 1)).map
        (·.2.1.regex)).Nodup := by
      rw [map_regex_itemsBefore]
      refine hListed.sublist ?_
      exact (List.take_sublist _ _).flatMap _
    have hSplit := itemsBefore_succ g hSection
    rw [hSplit, List.map_append, ← hRegexes] at hNodup
    have hState : (g'.tokenSection i).states =
        some (n.grammar.statesOf i) := by
      rw [hSec, hStates]
      rfl
    have hAmong : ∀ e ∈ (g'.tokenSection i).specs.zipIdx.map
        (fun e => (e.1, (i, e.2))),
        (g'.tokenSection i, e.1, e.2) ∈
          itemsBefore g g.sections.size := by
      intro e he
      apply itemsBefore_mono g hInside
      rw [hSplit, ← hItems]
      exact List.mem_append_right _ (List.mem_map_of_mem he)
    rw [hSplit, ← hItems]
    exact hSustained.foldl_numberSpec hState _ hAmong hNodup
      hClean (hSustained.settle i hBefore)

/- Numbering the first sections without error. -/
theorem Sustained.foldl_numberSection
    {g : Grammar}
    {P : Numbering → List Item → Prop}
    (hSustained : Sustained g P)
    (hListed : (listed g).Nodup)
    {n : Numbering}
    (hGrammar : n.grammar = g)
    (hStart : P n [])
    (i : Nat)
    (hInside : i ≤ g.sections.size)
    (hClean : ((List.range i).foldl numberSection
      n).session.Clean) :
    n.session.Clean ∧
      SettledBefore g i
        ((List.range i).foldl numberSection n).grammar ∧
      P ((List.range i).foldl numberSection n)
        (itemsBefore g i) := by
  induction i with
  | zero =>
      refine ⟨hClean, ⟨?_, congrArg _ hGrammar, ?_⟩, hStart⟩
      · intro k
        change n.grammar.sections[k]? = _
        rw [hGrammar]
        simp
      · intro id
        exact congrArg (fun g => (g.regex id).form) hGrammar
  | succ i ih =>
      rw [List.range_succ, List.foldl_append,
        List.foldl_cons, List.foldl_nil] at hClean ⊢
      rcases sustained_numberSection hInside hClean with
        ⟨hCleanBefore, hStep⟩
      rcases ih (Nat.le_of_succ_le hInside) hCleanBefore with
        ⟨hCleanStart, hSettled, hBefore⟩
      rcases hStep hSettled with ⟨hSettled', hAfter⟩
      exact ⟨hCleanStart, hSettled',
        hAfter hSustained hListed hBefore⟩

theorem sustained_numbered
    (g : Grammar) :
    Sustained g Numbered where
  settle i hBefore :=
    ⟨hBefore.bounded, hBefore.fresh, hBefore.entered,
      hBefore.apart.imp fun hApart =>
        ⟨hApart.kinds, hApart.literals⟩⟩
  step := by
    intro n items sec states spec pos _ hStates hNew hClean
      hBefore
    have hIn : n.grammar.statesIn sec = states := by
      unfold Grammar.statesIn
      rw [hStates]
      rfl
    exact (numbered_numberSpec hClean).2.2 hIn hNew hBefore

------------------------------------------------------------
-- Dropped entries
------------------------------------------------------------

theorem map_filter_zipIdx
    (sec : TokenSection)
    (i : SectionId)
    (marked : List SpecPos) :
    ((sec.specs.zipIdx.filter fun e =>
        !marked.contains (i, e.2)).map (·.1)).map
          (fun spec =>
            (({ sec with specs := [] } : TokenSection), spec)) =
      (unmarked marked (itemsOf sec i)).map
        (fun e => ({ e.1 with specs := [] }, e.2.1)) := by
  unfold unmarked itemsOf
  rw [List.filter_map, List.map_map, List.map_map]
  rfl

/- The entries that are left are those of unmarked items. -/
theorem entries_dropSpecs
    (g : Grammar)
    (marked : List SpecPos) :
    (dropSpecs g marked).entries =
      (unmarked marked (allSpecs g)).map
        (fun e => ({ e.1 with specs := [] }, e.2.1)) := by
  unfold Grammar.entries dropSpecs
  rw [allSpecs_eq]
  dsimp only
  rw [Array.toList_mapIdx, List.mapIdx_eq_zipIdx_map,
    List.flatMap_map]
  unfold unmarked
  rw [List.filter_flatMap, List.map_flatMap]
  refine List.flatMap_congr fun e _ => ?_
  exact map_filter_zipIdx e.1 e.2 marked

theorem entries_eq
    (g : Grammar) :
    g.entries =
      (allSpecs g).map
        (fun e => ({ e.1 with specs := [] }, e.2.1)) := by
  have hNone := entries_dropSpecs g []
  have hSame : (dropSpecs g []).entries = g.entries := by
    unfold Grammar.entries dropSpecs
    dsimp only
    rw [Array.toList_mapIdx, List.mapIdx_eq_zipIdx_map,
      List.flatMap_map]
    have hFirst := List.flatMap_map Prod.fst
      (fun sec : TokenSection => sec.specs.map fun spec =>
        (({ sec with specs := [] } : TokenSection), spec))
      g.sections.toList.zipIdx
    rw [List.zipIdx_map_fst] at hFirst
    rw [hFirst]
    refine List.flatMap_congr fun e _ => ?_
    simp
  rw [← hSame, hNone]
  unfold unmarked
  simp

theorem entries_dropSpecs_sublist
    (g : Grammar)
    (marked : List SpecPos) :
    (dropSpecs g marked).entries.Sublist g.entries := by
  rw [entries_dropSpecs, entries_eq]
  exact List.filter_sublist.map _

theorem listed_eq
    (g : Grammar) :
    listed g = g.entries.map (·.2.regex) := by
  unfold listed Grammar.entries
  rw [List.map_flatMap]
  refine List.flatMap_congr fun sec _ => ?_
  rw [List.map_map]
  rfl

theorem regex_dropSpecs
    (g : Grammar)
    (marked : List SpecPos)
    (id : RegexId) :
    (dropSpecs g marked).regex id = g.regex id :=
  rfl

theorem apart_dropSpecs
    {g : Grammar}
    (marked : List SpecPos)
    {e e' : TokenSection × TokenSpec}
    (hApart : g.Apart e e') :
    (dropSpecs g marked).Apart e e' :=
  ⟨hApart.kinds, hApart.literals⟩

theorem itemsBefore_size
    (g : Grammar) :
    itemsBefore g g.sections.size =
      allSpecs
        { g with sections := g.sections.map (settled g) } := by
  unfold itemsBefore
  rw [allSpecs_eq, List.take_of_length_le (by simp)]
  dsimp only
  rw [Array.toList_map]

/- Once all sections are settled, their items are these. -/
theorem itemsBefore_eq_allSpecs
    {g g' : Grammar}
    (hSettled : SettledBefore g g.sections.size g') :
    itemsBefore g g.sections.size = allSpecs g' := by
  have hSections : g'.sections = g.sections.map (settled g) := by
    refine Array.ext_getElem? ?_
    intro k
    rw [hSettled.sections, Array.getElem?_map]
    cases hGet : g.sections[k]? with
    | none => rfl
    | some sec =>
        have hLess := (Array.getElem?_eq_some_iff.mp hGet).1
        simp only [Option.map_some, if_pos hLess]
  rw [itemsBefore_size, allSpecs_eq, allSpecs_eq, hSections]

/- What is listed after numbering has been listed before. -/
theorem listed_dropSpecs_sublist
    {g g' : Grammar}
    (hSettled : SettledBefore g g.sections.size g')
    (marked : List SpecPos) :
    (listed (dropSpecs g' marked)).Sublist (listed g) := by
  rw [listed_eq, entries_dropSpecs, ← map_regex_allItems,
    itemsBefore_eq_allSpecs hSettled, List.map_map]
  exact List.filter_sublist.map _

/-
  The entries that numbering leaves are apart, whatever the
  sections say about the states.
-/
theorem numbered_assignKinds
    {g : Grammar}
    {s : Session}
    (hListed : (listed g).Nodup)
    (hFresh : ∀ id, (g.regex id).kind = 0)
    (hClean : (assignKinds g s).2.Clean) :
    (assignKinds g s).1.entries.Pairwise
        (assignKinds g s).1.Apart ∧
      g.Keeps (assignKinds g s).1 := by
  unfold assignKinds at hClean ⊢
  dsimp only at hClean ⊢
  generalize g.lexicalStates.foldl
    (fun t state => Assoc.alter state (·.getD []) t)
    s.simpleTokens = tables at hClean ⊢
  let n : Numbering :=
    { grammar := g,
      session := { s with tokenCount := 1, simpleTokens := tables } }
  have hStart : Numbered n [] := numbered_nil hFresh
  have hAll := (sustained_numbered g).foldl_numberSection
    hListed (n := n) rfl hStart g.sections.size le_rfl hClean
  rcases hAll with ⟨-, hSettled, hNumbered⟩
  change ((dropSpecs ((List.range g.sections.size).foldl
    numberSection n).grammar _).entries.Pairwise _) ∧ _
  generalize (List.range g.sections.size).foldl numberSection n
    = n' at hSettled hNumbered
  rw [itemsBefore_eq_allSpecs hSettled] at hNumbered
  constructor
  · rw [entries_dropSpecs, List.pairwise_map]
    refine hNumbered.apart.imp ?_
    intro e e' hApart
    exact ⟨hApart.kinds, hApart.literals⟩
  · intro id
    exact .inl (hSettled.forms id)

------------------------------------------------------------
-- References
------------------------------------------------------------

/- A relation that every step of a fold keeps up. -/
theorem rel_foldl
    {α β : Type}
    {R : α → α → Prop}
    (hRefl : ∀ a, R a a)
    (hTrans : ∀ {a b c}, R a b → R b c → R a c)
    {f : α → β → α}
    (hStep : ∀ a x, R a (f a x))
    (xs : List β)
    (a : α) :
    R a (xs.foldl f a) := by
  induction xs generalizing a with
  | nil => exact hRefl a
  | cons x xs ih => exact hTrans (hStep a x) (ih (f a x))

/- Only references have been changed. -/
structure Points
    (g g' : Grammar) : Prop where
  sections : g'.sections = g.sections
  states : g'.lexicalStates = g.lexicalStates
  regexes :
    ∀ id, g'.regex id = g.regex id ∨
      (isReference (g.regex id) = true ∧
        isReference (g'.regex id) = true)

theorem Points.refl
    (g : Grammar) :
    Points g g :=
  ⟨rfl, rfl, fun _ => .inl rfl⟩

theorem Points.trans
    {g g' g'' : Grammar}
    (hFirst : Points g g')
    (hSecond : Points g' g'') :
    Points g g'' where
  sections := hSecond.sections.trans hFirst.sections
  states := hSecond.states.trans hFirst.states
  regexes id := by
    rcases hFirst.regexes id with hSame | ⟨hBefore, hMid⟩
    · rcases hSecond.regexes id with hSame' | ⟨hMid, hAfter⟩
      · exact .inl (hSame'.trans hSame)
      · rw [hSame] at hMid
        exact .inr ⟨hMid, hAfter⟩
    · rcases hSecond.regexes id with hSame' | ⟨-, hAfter⟩
      · rw [← hSame'] at hMid
        exact .inr ⟨hBefore, hMid⟩
      · exact .inr ⟨hBefore, hAfter⟩

theorem Points.keeps
    {g g' : Grammar}
    (hPoints : Points g g') :
    g.Keeps g' := by
  intro id
  rcases hPoints.regexes id with hSame | hBoth
  · exact .inl (congrArg RegexNode.form hSame)
  · exact .inr hBoth

/- Change a reference into a reference. -/
theorem points_modifyRegex
    {g : Grammar}
    {id : RegexId}
    {name : String}
    {target : Option RegexId}
    (hForm : (g.regex id).form = .reference name target)
    (f : RegexNode → RegexNode)
    (hReference :
      isReference (f (g.regex id)) = true) :
    Points g (g.modifyRegex id f) := by
  refine ⟨rfl, rfl, fun r => ?_⟩
  rw [Grammar.regex_modifyRegex]
  split
  · next hHere =>
      refine .inr ⟨?_, hReference⟩
      unfold isReference
      rw [hHere.1, hForm]
  · exact .inl rfl

/- Errors are not taken back, and only references change. -/
def Resolves
    (gs gs' : Grammar × Session) : Prop :=
  (gs'.2.Clean → gs.2.Clean) ∧ Points gs.1 gs'.1

theorem Resolves.refl
    (gs : Grammar × Session) :
    Resolves gs gs :=
  ⟨fun h => h, .refl _⟩

theorem Resolves.trans
    {gs gs' gs'' : Grammar × Session}
    (hFirst : Resolves gs gs')
    (hSecond : Resolves gs' gs'') :
    Resolves gs gs'' :=
  ⟨fun h => hFirst.1 (hSecond.1 h),
    hFirst.2.trans hSecond.2⟩

theorem resolves_error
    (g : Grammar)
    (s : Session)
    (place : Location)
    (message : String) :
    Resolves (g, s) (g, s.error place message) :=
  ⟨fun h => absurd h (Session.not_clean_error _ _ _), .refl g⟩

theorem isReference_eq_false
    {r : RegexNode}
    (hForm : ∀ name target, r.form ≠ .reference name target) :
    isReference r = false := by
  unfold isReference
  split
  · next name target hReference =>
      exact absurd hReference (hForm name target)
  · rfl

/-
  A reference is pointed to what has its name, or there is an
  error.  Anything else is left alone.
-/
theorem resolveReference_cases
    (explicit : Bool)
    (root : RegexId)
    (g : Grammar)
    (s : Session)
    (id : RegexId) :
    (∃ name old target,
        (g.regex id).form = .reference name old ∧
          Assoc.get? name s.namedTokens = some target ∧
          resolveReference explicit root (g, s) id =
            (pointTo g id name target, s)) ∨
      (∃ place message,
        resolveReference explicit root (g, s) id =
          (g, s.error place message)) ∨
      (isReference (g.regex id) = false ∧
        resolveReference explicit root (g, s) id = (g, s)) := by
  unfold resolveReference
  dsimp only
  split
  · next name old hForm =>
      split
      · exact .inr (.inl ⟨_, _, rfl⟩)
      · next target hGet =>
          split
          · exact .inr (.inl ⟨_, _, rfl⟩)
          · split
            · exact .inr (.inl ⟨_, _, rfl⟩)
            · exact .inl ⟨name, old, target, hForm, hGet, rfl⟩
  · next hForm =>
      exact .inr (.inr ⟨isReference_eq_false hForm, rfl⟩)

theorem resolves_resolveReference
    (explicit : Bool)
    (root : RegexId)
    (gs : Grammar × Session)
    (id : RegexId) :
    Resolves gs (resolveReference explicit root gs id) := by
  rcases gs with ⟨g, s⟩
  rcases resolveReference_cases explicit root g s id with
    ⟨name, old, target, hForm, -, hSame⟩ |
    ⟨place, message, hSame⟩ | ⟨-, hSame⟩
  · rw [hSame]
    exact ⟨fun h => h, points_modifyRegex hForm _ rfl⟩
  · rw [hSame]
    exact resolves_error g s place message
  · rw [hSame]
    exact .refl _

theorem resolves_resolveSpec
    (acc : Grammar × Session × List SpecPos)
    (entry : Item) :
    Resolves (acc.1, acc.2.1)
      ((resolveSpec acc entry).1,
        (resolveSpec acc entry).2.1) := by
  rcases acc with ⟨g, s, marked⟩
  rcases entry with ⟨sec, spec, pos⟩
  exact rel_foldl Resolves.refl Resolves.trans
    (resolves_resolveReference sec.explicit spec.regex)
    (g.regexPreOrder spec.regex) (g, s)

theorem resolves_numberReference
    (acc : Grammar × Session × List SpecPos)
    (entry : Item) :
    Resolves (acc.1, acc.2.1)
      ((numberReference acc entry).1,
        (numberReference acc entry).2.1) := by
  rcases acc with ⟨g, s, marked⟩
  rcases entry with ⟨sec, spec, pos⟩
  unfold numberReference
  dsimp only
  split
  · next name target hForm =>
      split
      · refine ⟨fun h => h, points_modifyRegex hForm _ ?_⟩
        unfold isReference
        rw [hForm]
      · exact ⟨fun h => h, points_modifyRegex hForm _ rfl⟩
  · exact .refl _

theorem clean_warnUnnamed
    (g : Grammar)
    (s : Session)
    (id : RegexId) :
    (warnUnnamed g s id).Clean → s.Clean := by
  unfold warnUnnamed
  dsimp only
  split
  · exact fun h => h
  · exact (Session.clean_warning _ _ _).mp

/- The entries that are no mere references are apart. -/
def EntriesApart
    (g : Grammar) : Prop :=
  g.entries.Pairwise fun e e' =>
    isReference (g.regex e.2.regex) = false →
    isReference (g.regex e'.2.regex) = false →
      g.Apart e e'

theorem EntriesApart.points
    {g g' : Grammar}
    (hPoints : Points g g')
    (hApart : EntriesApart g)
    (marked : List SpecPos) :
    EntriesApart (dropSpecs g' marked) := by
  have hEntries : g'.entries = g.entries := by
    unfold Grammar.entries
    rw [hPoints.sections]
  -- What is not a reference afterwards has not been changed.
  have hSame : ∀ id, isReference (g'.regex id) = false →
      g'.regex id = g.regex id := by
    intro id hNot
    rcases hPoints.regexes id with hSame | ⟨-, hAfter⟩
    · exact hSame
    · rw [hAfter] at hNot
      cases hNot
  refine List.Pairwise.sublist
    (entries_dropSpecs_sublist g' marked) ?_
  rw [hEntries]
  refine List.Pairwise.imp ?_ hApart
  intro e e' hBefore hNot hNot'
  rw [regex_dropSpecs] at hNot hNot'
  have hFirst := hSame _ hNot
  have hSecond := hSame _ hNot'
  rw [hFirst] at hNot
  rw [hSecond] at hNot'
  rcases hBefore hNot hNot' with ⟨hKinds, hLiterals⟩
  refine apart_dropSpecs marked ⟨?_, ?_⟩
  · rw [hFirst, hSecond]
    exact hKinds
  · unfold Grammar.statesIn
    rw [hFirst, hSecond, hPoints.states]
    exact hLiterals

theorem resolves_resolveReferences
    (g : Grammar)
    (s : Session) :
    ∃ g' marked, Points g g' ∧
      (resolveReferences g s).1 = dropSpecs g' marked ∧
      ((resolveReferences g s).2.Clean → s.Clean) := by
  have hFold := rel_foldl
    (R := fun acc acc' : Grammar × Session × List SpecPos =>
      Resolves (acc.1, acc.2.1) (acc'.1, acc'.2.1))
    (fun _ => Resolves.refl _) Resolves.trans
    resolves_resolveSpec (allSpecs g) (g, s, [])
  exact ⟨_, _, hFold.2, rfl, hFold.1⟩

theorem resolves_numberReferences
    (g : Grammar)
    (s : Session) :
    ∃ g' marked, Points g g' ∧
      (numberReferences g s).1 = dropSpecs g' marked ∧
      ((numberReferences g s).2.Clean → s.Clean) := by
  have hFold := rel_foldl
    (R := fun acc acc' : Grammar × Session × List SpecPos =>
      Resolves (acc.1, acc.2.1) (acc'.1, acc'.2.1))
    (fun _ => Resolves.refl _) Resolves.trans
    resolves_numberReference (allSpecs g) (g, s, [])
  unfold numberReferences
  generalize (allSpecs g).foldl numberReference (g, s, []) = acc
    at hFold ⊢
  rcases acc with ⟨g', s', marked⟩
  refine ⟨g', marked, hFold.2, rfl, fun hClean =>
    hFold.1 ?_⟩
  refine rel_foldl (R := fun s s' : Session =>
      s'.Clean → s.Clean)
    (fun _ h => h) (fun hFirst hSecond h => hFirst (hSecond h))
    ?_ (allSpecs (dropSpecs g' marked)) s' hClean
  intro s e
  exact clean_warnUnnamed _ s e.2.1.regex

end TokenTable

------------------------------------------------------------
-- Analysis
------------------------------------------------------------

/- Tokens are as they were. -/
structure Grammar.SameTokens
    (g g' : Grammar) : Prop where
  regexes : g'.regexes = g.regexes
  sections : g'.sections = g.sections
  states : g'.lexicalStates = g.lexicalStates

theorem Grammar.SameTokens.refl
    (g : Grammar) :
    g.SameTokens g :=
  ⟨rfl, rfl, rfl⟩

theorem Grammar.SameTokens.trans
    {g g' g'' : Grammar}
    (hFirst : g.SameTokens g')
    (hSecond : g'.SameTokens g'') :
    g.SameTokens g'' :=
  ⟨hSecond.regexes.trans hFirst.regexes,
    hSecond.sections.trans hFirst.sections,
    hSecond.states.trans hFirst.states⟩

theorem Grammar.sameTokens_modifyNode
    (g : Grammar)
    (id : ExpId)
    (f : ExpNode → ExpNode) :
    g.SameTokens (g.modifyNode id f) :=
  ⟨rfl, rfl, rfl⟩

theorem Grammar.sameTokens_addExpansion
    (g : Grammar)
    (form : Expansion)
    (place : Location) :
    g.SameTokens (g.addExpansion form place).2 :=
  ⟨rfl, rfl, rfl⟩

theorem Grammar.sameTokens_adopt
    (g : Grammar)
    (owner : ExpId)
    (parts : List ExpId) :
    g.SameTokens (g.adopt owner parts) := by
  unfold adopt
  refine TokenTable.rel_foldl SameTokens.refl SameTokens.trans
    ?_ parts g
  intro g child
  exact g.sameTokens_modifyNode child _

theorem LookaheadFix.sameTokens_moveLookahead
    (g : Grammar)
    (id head : ExpId)
    (la : Lookahead)
    (rest : List ExpId) :
    g.SameTokens (moveLookahead g id head la rest) := by
  unfold moveLookahead
  extract_lets place
  refine .trans ?_ (Grammar.sameTokens_modifyNode _ id _)
  refine .trans ?_ (Grammar.sameTokens_adopt _ id _)
  refine .trans ?_ (Grammar.sameTokens_adopt _ _ _)
  refine .trans ?_ (Grammar.sameTokens_adopt _ _ _)
  refine .trans ?_ (Grammar.sameTokens_modifyNode _ head _)
  refine .trans ?_ (Grammar.sameTokens_addExpansion _ _ _)
  refine .trans ?_ (Grammar.sameTokens_addExpansion _ _ _)
  refine .trans ?_ (Grammar.sameTokens_addExpansion _ _ _)
  exact Grammar.sameTokens_addExpansion _ _ _

theorem LookaheadFix.sameTokens_run
    (g : Grammar)
    (s : Session) :
    g.SameTokens (LookaheadFix.run g s).1 := by
  have hStep : ∀ (gs : Grammar × Session) (id : ExpId),
      gs.1.SameTokens (fixSequence gs id).1 := by
    rintro ⟨g, s⟩ id
    unfold fixSequence
    dsimp only
    split
    · exact .refl g
    · exact sameTokens_moveLookahead g id _ _ _
  exact TokenTable.rel_foldl
    (R := fun gs gs' : Grammar × Session =>
      gs.1.SameTokens gs'.1)
    (fun _ => .refl _) Grammar.SameTokens.trans
    (fun gs body => TokenTable.rel_foldl
      (R := fun gs gs' : Grammar × Session =>
        gs.1.SameTokens gs'.1)
      (fun _ => .refl _) Grammar.SameTokens.trans hStep _ gs)
    _ (g, s)

/-
  A grammar before analysis: token expressions are not parts
  of themselves, have no kinds yet, and are listed once.
-/
structure Grammar.Fresh
    (g : Grammar) : Prop where
  tree : g.RegexTree
  unnumbered : ∀ id, (g.regex id).kind = 0
  listedOnce : (TokenTable.listed g).Nodup

/-
  It is enough that every expression comes after its parts and
  has no kind, as they do when a grammar is put together.
-/
theorem Grammar.fresh_of_partsBefore
    {g : Grammar}
    (hRegexes : ∀ id < g.regexes.size,
      (∀ part ∈ g.regexChildren id, part < id) ∧
        (g.regex id).kind = 0)
    (hListed : (TokenTable.listed g).Nodup) :
    g.Fresh := by
  constructor
  · apply Grammar.regexTree_of_partsBefore
    intro id part hPart
    exact (hRegexes id (Grammar.lt_size_of_partOf hPart)).1
      part hPart
  · intro id
    rcases Nat.lt_or_ge id g.regexes.size with hInside | hOutside
    · exact (hRegexes id hInside).2
    · unfold Grammar.regex
      rw [Array.getD_eq_getD_getElem?,
        Array.getElem?_eq_none hOutside]
      rfl
  · exact hListed

/- Tokens are resolved and kept apart unless there are errors. -/
theorem entriesApart_resolve
    {g : Grammar}
    (hFresh : g.Fresh)
    (s : Session)
    (hClean : (Analysis.resolve g s).2.Clean) :
    (Analysis.resolve g s).1.RegexTree ∧
      TokenTable.EntriesApart (Analysis.resolve g s).1 := by
  have hRun := LookaheadFix.sameTokens_run g
    (Analysis.warnLookahead s)
  unfold Analysis.resolve at hClean ⊢
  generalize LookaheadFix.run g (Analysis.warnLookahead s)
    = fixed at hRun hClean ⊢
  rcases fixed with ⟨g₁, s₁⟩
  dsimp only at hRun hClean ⊢
  have hRegex : ∀ id, g₁.regex id = g.regex id := by
    intro id
    unfold Grammar.regex
    rw [hRun.regexes]
  have hListed : TokenTable.listed g₁ = TokenTable.listed g := by
    unfold TokenTable.listed
    rw [hRun.sections]
  generalize References.resolve g₁
    (References.enterProductions g₁ s₁) = s₂ at hClean ⊢
  rcases hChecked : TokenTable.checkSections g₁ s₂ with ⟨g₂, s₃⟩
  have hDropped : ∃ marked,
      g₂ = TokenTable.dropSpecs g₁ marked := by
    exact ⟨_, (congrArg Prod.fst hChecked).symm⟩
  rcases hDropped with ⟨marked, rfl⟩
  rw [hChecked] at hClean
  dsimp only at hClean ⊢
  generalize TokenTable.collectNames _ s₃ = s₄ at hClean ⊢
  have hListed₂ : (TokenTable.listed
      (TokenTable.dropSpecs g₁ marked)).Nodup := by
    have hOnce := hFresh.listedOnce
    rw [← hListed, TokenTable.listed_eq] at hOnce
    rw [TokenTable.listed_eq]
    exact hOnce.sublist
      ((TokenTable.entries_dropSpecs_sublist g₁ marked).map _)
  have hNumbering := TokenTable.numbered_assignKinds
    (s := s₄) hListed₂ (fun id => by
      rw [TokenTable.regex_dropSpecs, hRegex]
      exact hFresh.unnumbered id)
  have hTree : g₁.RegexTree := by
    refine Grammar.Keeps.regexTree (fun id => .inl ?_)
      hFresh.tree
    rw [hRegex]
  generalize TokenTable.assignKinds
    (TokenTable.dropSpecs g₁ marked) s₄ = numbered
    at hClean hNumbering ⊢
  rcases numbered with ⟨g₃, s₅⟩
  dsimp only at hClean hNumbering ⊢
  have hEnd : ∀ {g₄ : Grammar}, (∃ g' marked',
      TokenTable.Points g₃ g' ∧
        g₄ = TokenTable.dropSpecs g' marked') → s₅.Clean →
      g₄.RegexTree ∧ TokenTable.EntriesApart g₄ := by
    rintro g₄ ⟨g', marked', hPoints, rfl⟩ hClean
    rcases hNumbering hClean with ⟨hApart, hKeeps⟩
    constructor
    · exact (hKeeps.trans hPoints.keeps).regexTree hTree
    · refine TokenTable.EntriesApart.points hPoints ?_ marked'
      exact hApart.imp fun h _ _ => h
  split at hClean
  · next hUser =>
      rw [if_pos hUser]
      rcases TokenTable.resolves_numberReferences g₃ s₅ with
        ⟨g', marked', hPoints, hEq, hBack⟩
      exact hEnd ⟨g', marked', hPoints, hEq⟩ (hBack hClean)
  · next hUser =>
      rw [if_neg hUser]
      rcases TokenTable.resolves_resolveReferences g₃ s₅ with
        ⟨g', marked', hPoints, hEq, hBack⟩
      exact hEnd ⟨g', marked', hPoints, hEq⟩ (hBack hClean)

/- What holds of the entries of a grammar that passes. -/
theorem entriesApart_analyze
    {g g' : Grammar}
    {s s' : Session}
    (hFresh : g.Fresh)
    (hPasses : analyze g s = (g', s', .ok ())) :
    g'.RegexTree ∧ TokenTable.EntriesApart g' := by
  have hResolve := entriesApart_resolve hFresh s
  unfold analyze at hPasses
  generalize Analysis.resolve g s = resolved
    at hPasses hResolve
  rcases resolved with ⟨g₁, s₁⟩
  dsimp only at hPasses hResolve
  cases hCheck : s₁.diagnostics.checkpoint with
  | error e =>
      rw [hCheck] at hPasses
      simp at hPasses
  | ok _ =>
      rw [hCheck] at hPasses
      dsimp only at hPasses
      have hGrammar := congrArg Prod.fst hPasses
      change g₁ = g' at hGrammar
      rw [← hGrammar]
      exact hResolve (Session.clean_of_checkpoint hCheck)

end Descent
