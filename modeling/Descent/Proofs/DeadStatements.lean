import Descent.Grammar.Builder
import Descent.Proofs.BuiltLexer
import Descent.TokenManager.Cascade
import Mathlib

/-
  Statements that the routines for literals never reach.

  A block of a routine first deals with the literals that end
  and then goes on.  At the first position the least of those
  literals is not tested for, so where nothing extends it the
  block returns before it goes on, and what goes on is never
  reached.  No other block has such a statement.

  Main declarations:
    * `Cascade.Overruns`
    * `Cascade.overruns_blockOf`
    * `Cascade.blockLines_of_overruns`
    * `LiteralTable.StandsAlone`
    * `Lexer.overruns_level_iff`
-/

------------------------------------------------------------
-- Blocks
------------------------------------------------------------

namespace Descent

open LiteralTable (HasKey infoAt isExtended)
open TokenTable (EntriesApart)

namespace Cascade

/- At the start, what returns is written as one such line. -/
theorem statementLines_of_returns
    (o : Options)
    (st : LexState)
    {s : Statement}
    (hReturns : s.returns = true) :
    ∃ result, statementLines o st 0 "         " s =
      ["         return " ++ result] := by
  cases s with
  | commit c =>
      cases c with
      | stop kind =>
          refine ⟨s!"jjStopAtPos(0, {kind});", ?_⟩
          simp [statementLines, commitLines, toString,
            ← String.toList_inj]
      | resume kind state =>
          refine ⟨s!"jjStartNfaWithStates_{st.index}(" ++
            s!"0, {kind}, {state});", ?_⟩
          simp [statementLines, commitLines, toString,
            ← String.toList_inj]
      | note kind => cases hReturns
  | tests arms => cases hReturns
  | descend args =>
      refine ⟨s!"jjMoveStringLiteralDfa1_{st.index}(" ++
        Frame.commas args ++ ");", ?_⟩
      have hNext : Nat.toDigits 10 1 = ['1'] := by decide
      simp [statementLines, toString, ← String.toList_inj,
        hNext]
  | automaton =>
      refine ⟨s!"jjMoveNfa_{st.index}(0, 0);", ?_⟩
      simp [statementLines, toString, ← String.toList_inj]
  | fallBack =>
      refine ⟨s!"jjStartNfa_{st.index}(0, " ++
        actives st.literals 0 ++ ");", ?_⟩
      simp [statementLines, toString, ← String.toList_inj]
  | giveUp count =>
      refine ⟨s!"{count};", ?_⟩
      simp [statementLines, toString, ← String.toList_inj]
  | leave => cases hReturns

/- At the start, what comes last in a block is one line. -/
theorem exists_statementLines_next
    (o : Options)
    (st : LexState)
    (alive : KindSet) :
    ∃ line, statementLines o st 0 "         "
      (nextStatement o st 0 alive) = [line] := by
  unfold nextStatement
  split
  · exact ⟨_, rfl⟩
  · split
    · next hPos => cases hPos
    · split
      · exact ⟨_, rfl⟩
      · exact ⟨_, rfl⟩

/- Some statement follows one that returns. -/
def Overruns
    (body : List Statement) : Prop :=
  ∃ s ∈ body.dropLast, s.returns = true

instance (body : List Statement) :
    Decidable (Overruns body) :=
  inferInstanceAs (Decidable (∃ s ∈ body.dropLast, _))

/- A literal that ends returns unless something extends it. -/
theorem returns_commitOf
    (st : LexState)
    (pos : Nat)
    (kind : Kind) :
    (commitOf st pos kind).returns =
      !st.literals.isSubString kind := by
  unfold commitOf
  cases st.literals.isSubString kind with
  | true => rfl
  | false => cases st.literals.stateFor? pos kind <;> rfl

/-
  Only at the first position is a block left early, and only
  by the least literal that ends there.
-/
theorem overruns_blockOf
    (o : Options)
    (st : LexState)
    (pos : Nat)
    (entry : Nat × KindInfo) :
    Overruns (blockOf o st pos entry).body ↔
      pos = 0 ∧ ∃ k, entry.2.ended.least? = some k ∧
        st.literals.isSubString k = false := by
  unfold Overruns blockOf endStatements KindSet.least?
  simp only [List.dropLast_concat]
  cases entry.2.ended.kinds with
  | nil => simp
  | cons k ks =>
      by_cases hPos : pos = 0
      · simp [hPos, Statement.returns, returns_commitOf]
      · simp [hPos, Statement.returns]

/-
  A block that is left early is written as its labels, a line
  that returns, and a line that is not reached.
-/
theorem blockLines_of_overruns
    {o : Options}
    {st : LexState}
    {pos : Nat}
    {entry : Nat × KindInfo}
    (hOverruns : Overruns (blockOf o st pos entry).body) :
    ∃ result line,
      blockLines o st pos (blockOf o st pos entry) =
        (blockOf o st pos entry).labels.map
            (fun c => s!"      case {c}:") ++
          ["         return " ++ result, line] := by
  rcases (overruns_blockOf o st pos entry).mp hOverruns with
    ⟨rfl, k, hLeast, hAlone⟩
  have hReturns : (Statement.commit
      (commitOf st 0 k)).returns = true := by
    rw [Statement.returns, returns_commitOf, hAlone]
    rfl
  have hEnds : endStatements st 0 entry.2.ended =
      [.commit (commitOf st 0 k)] := by
    unfold KindSet.least? at hLeast
    unfold endStatements
    cases hKinds : entry.2.ended.kinds with
    | nil =>
        rw [hKinds] at hLeast
        cases hLeast
    | cons k' ks =>
        rw [hKinds] at hLeast
        cases hLeast
        rfl
  rcases statementLines_of_returns o st hReturns with
    ⟨result, hFirst⟩
  rcases exists_statementLines_next o st entry.2.alive with
    ⟨line, hLast⟩
  refine ⟨result, line, ?_⟩
  simp only [blockLines, blockOf, hEnds, List.singleton_append,
    List.flatMap_cons, List.flatMap_nil, hFirst, hLast,
    List.append_nil]

end Cascade

------------------------------------------------------------
-- Entries
------------------------------------------------------------

namespace LiteralTable

/-
  A literal of one character that nothing extends, the least
  of those with its character.
-/
structure StandsAlone
    (literals : List Literal)
    (ignoreCase : Bool)
    (lit : Literal)
    (c : Nat) : Prop where
  mem : lit ∈ literals
  single : lit.image.length = 1
  key : HasKey ignoreCase lit 0 c
  least :
    ∀ l ∈ literals, l.image.length = 1 →
      HasKey ignoreCase l 0 c → lit.kind ≤ l.kind
  alone : isExtended literals ignoreCase lit = false

section Built

variable {literals : List Literal} {ignoreCase mixed : Bool}

/- The kinds that end with the first character. -/
theorem contains_ended_build
    {c : Nat}
    {info : KindInfo}
    (hMem : (c, info) ∈
      (build literals ignoreCase mixed).entries.getD 0 [])
    (k : Nat) :
    info.ended.contains k = true ↔
      ∃ l ∈ (build literals ignoreCase mixed).literals,
        l.kind = k ∧ l.image.length = 1 ∧
          HasKey ignoreCase l 0 c := by
  have hEntries := mem_part_build literals ignoreCase mixed 0
    c true k
  rw [infoAt_of_mem (sorted_build _ _ _) hMem] at hEntries
  refine hEntries.trans ?_
  simp only [Nat.zero_add, eq_comm (a := true),
    decide_eq_true_eq, eq_comm (a := 1), and_comm (b := _ = 1)]

/- What ends with the first character and is not extended. -/
theorem exists_standsAlone_iff
    (hDistinct : (literals.map (·.kind)).Nodup)
    (hPlain : mixed = true → literals = [])
    {c : Nat}
    {info : KindInfo}
    (hMem : (c, info) ∈
      (build literals ignoreCase mixed).entries.getD 0 []) :
    (∃ k, info.ended.least? = some k ∧
        (build literals ignoreCase mixed).isSubString k =
          false) ↔
      ∃ lit, StandsAlone
        (build literals ignoreCase mixed).literals ignoreCase
        lit c := by
  have hEnded := contains_ended_build hMem
  have hFlag := isSubString_build literals ignoreCase mixed
  simp only [KindSet.least?_eq_some_iff, ← Bool.not_eq_true,
    hFlag]
  constructor
  · rintro ⟨k, ⟨hk, hLow⟩, hNot⟩
    rcases (hEnded k).mp hk with ⟨lit, hl, rfl, hSingle, hKey⟩
    refine ⟨lit, hl, hSingle, hKey, ?_, ?_⟩
    · intro l hl' hSingle' hKey'
      exact hLow ((hEnded l.kind).mpr
        ⟨l, hl', rfl, hSingle', hKey'⟩)
    · rw [← Bool.not_eq_true]
      exact fun hLonger => hNot ⟨lit, hl, rfl, .inr hLonger⟩
  · rintro ⟨lit, hAlone⟩
    refine ⟨lit.kind, ⟨(hEnded lit.kind).mpr ⟨lit, hAlone.mem,
      rfl, hAlone.single, hAlone.key⟩, ?_⟩, ?_⟩
    · intro k hk
      rcases (hEnded k).mp hk with ⟨l, hl, rfl, hSingle, hKey⟩
      exact hAlone.least l hl hSingle hKey
    · rintro ⟨l, hl, hKind, hMixed | hLonger⟩
      · have hMemBefore :=
          ((mem_literals_build _ _ _ _).mp hl).1
        simp [hPlain hMixed] at hMemBefore
      · have hSame : l = lit :=
          List.inj_on_of_nodup_map hDistinct
            ((mem_literals_build _ _ _ _).mp hl).1
            ((mem_literals_build _ _ _ _).mp hAlone.mem).1
            hKind
        rw [hSame, hAlone.alone] at hLonger
        cases hLonger

end Built

end LiteralTable

------------------------------------------------------------
-- Routines
------------------------------------------------------------

namespace LexState

/- A state has the table that was built for some literals. -/
structure Tabulates
    (st : LexState)
    (literals : List Literal)
    (ignoreCase mixed : Bool) : Prop where
  distinct : (literals.map (·.kind)).Nodup
  plain : mixed = true → literals = []
  entries :
    st.literals.entries =
      (LiteralTable.build literals ignoreCase mixed).entries
  members :
    st.literals.literals =
      (LiteralTable.build literals ignoreCase mixed).literals
  subStrings :
    st.literals.subStrings =
      (LiteralTable.build literals ignoreCase mixed).subStrings
  ignoreCase : st.literals.ignoreCase = ignoreCase

section Routines

variable {st : LexState} {literals : List Literal}
variable {ignoreCase mixed : Bool}

/- What of an entry decides over its block at the start. -/
theorem Tabulates.exists_least_iff
    (hTable : st.Tabulates literals ignoreCase mixed)
    {c : Nat}
    {info : KindInfo}
    (hMem : (c, info) ∈ st.literals.entries.getD 0 []) :
    (∃ k, info.ended.least? = some k ∧
        st.literals.isSubString k = false) ↔
      ∃ lit, LiteralTable.StandsAlone st.literals.literals
        st.literals.ignoreCase lit c := by
  rw [hTable.entries] at hMem
  have hAlone := LiteralTable.exists_standsAlone_iff
    hTable.distinct hTable.plain hMem
  unfold LiteralTable.isSubString at hAlone ⊢
  rwa [hTable.subStrings, hTable.members,
    hTable.ignoreCase]

/- The first routine has a block for each literal of its own. -/
theorem Tabulates.exists_entry
    (hTable : st.Tabulates literals ignoreCase mixed)
    {c : Nat}
    {lit : Literal}
    (hAlone : LiteralTable.StandsAlone st.literals.literals
      st.literals.ignoreCase lit c)
    (hSkip : st.skipKeys.contains c = false) :
    ∃ info, (c, info) ∈ Cascade.entriesAt st 0 ∧
      (c, info) ∈ st.literals.entries.getD 0 [] := by
  rw [hTable.members, hTable.ignoreCase] at hAlone
  have hEnds := (LiteralTable.mem_part_build literals
    ignoreCase mixed 0 c true lit.kind).mpr
      ⟨lit, hAlone.mem, rfl, hAlone.key,
        by simp [hAlone.single]⟩
  rcases LiteralTable.exists_mem_of_contains hEnds with
    ⟨info, hMem⟩
  rw [← hTable.entries] at hMem
  refine ⟨info, ?_, hMem⟩
  simp only [Cascade.entriesAt, beq_self_eq_true, if_true]
  exact List.mem_filter.mpr ⟨hMem, by rw [hSkip]; rfl⟩

/-
  The blocks of a routine with a statement that is not
  reached: at the first position those of literals that stand
  alone, and no others.
-/
theorem Tabulates.overruns_iff
    (hTable : st.Tabulates literals ignoreCase mixed)
    (o : Options)
    (pos : Nat)
    (labels : List Nat) :
    (∃ b ∈ (Cascade.level o st pos).blocks,
        b.labels = labels ∧ Cascade.Overruns b.body) ↔
      pos = 0 ∧ ∃ c lit,
        LiteralTable.StandsAlone st.literals.literals
          st.literals.ignoreCase lit c ∧
        st.skipKeys.contains c = false ∧
        labels = st.literals.caseLabels c := by
  simp only [Cascade.level, List.mem_map]
  constructor
  · rintro ⟨b, ⟨⟨c, info⟩, hMem, rfl⟩, rfl, hOverruns⟩
    rcases (Cascade.overruns_blockOf o st pos _).mp
      hOverruns with ⟨rfl, hLeast⟩
    simp only [Cascade.entriesAt, beq_self_eq_true, if_true,
      List.mem_filter, Bool.not_eq_true'] at hMem
    rcases (hTable.exists_least_iff hMem.1).mp hLeast with
      ⟨lit, hAlone⟩
    exact ⟨rfl, c, lit, hAlone, hMem.2, rfl⟩
  · rintro ⟨rfl, c, lit, hAlone, hSkip, rfl⟩
    rcases hTable.exists_entry hAlone hSkip with
      ⟨info, hBlock, hMem⟩
    refine ⟨_, ⟨_, hBlock, rfl⟩, rfl, ?_⟩
    exact (Cascade.overruns_blockOf o st 0 _).mpr
      ⟨rfl, (hTable.exists_least_iff hMem).mpr ⟨lit, hAlone⟩⟩

end Routines

end LexState

------------------------------------------------------------
-- Lexers
------------------------------------------------------------

namespace Lexer

section Built

variable {g : Grammar} {s : Session} {lx : Lexer}

/- The tables of every lexical state were built. -/
theorem BuiltFrom.tabulates
    {c : Collected}
    (hBuilt : BuiltFrom g s c lx)
    (hCollects : Collects g s.tokenCount g.entries c)
    {i : Nat}
    (hInside : i < lx.states.size) :
    (lx.state i).Tabulates
      (tableLiterals g (c.active.getD i []))
      s.options.ignoreCase
      (isMixed (literalsOf g (c.active.getD i []))) := by
  rcases hBuilt.state i hInside with ⟨name, reached, hState⟩
  have hTable := literals_tablesOf g s.options.ignoreCase name
    i (c.active.getD i [])
  unfold builtState at hState
  generalize tablesOf _ _ _ _ _ = st at hState hTable
  have hSame : (lx.state i).literals = st.literals := by
    rw [hState]
    rfl
  refine ⟨?_, fun hMixed => if_pos hMixed, ?_, ?_, ?_, ?_⟩
  · exact distinct_tableLiterals (hCollects.distinct i)
  all_goals
    rw [hSame]
    rcases hTable with hTable | hTable <;> rw [hTable] <;> rfl

/-
  Where the routines for the literals of a lexical state have
  a statement that is not reached: for every grammar that
  passes analysis and whose lexer can be built, in the blocks
  at the first position whose least literal stands alone.
  Such a block is written with the line that is not reached.
-/
theorem overruns_level_iff
    {g₀ : Grammar}
    {s₀ s' : Session}
    (hFresh : g₀.Fresh)
    (hPasses : analyze g₀ s₀ = (g, s, .ok ()))
    (hBuild : build g s = (s', .ok lx))
    {i : Nat}
    (hInside : i < lx.states.size)
    (o : Options)
    (pos : Nat)
    (labels : List Nat) :
    ((∃ b ∈ (Cascade.level o (lx.state i) pos).blocks,
        b.labels = labels ∧ Cascade.Overruns b.body) ↔
      pos = 0 ∧ ∃ c lit,
        LiteralTable.StandsAlone
          (lx.state i).literals.literals
          (lx.state i).literals.ignoreCase lit c ∧
        (lx.state i).skipKeys.contains c = false ∧
        labels = (lx.state i).literals.caseLabels c) ∧
    ∀ b ∈ (Cascade.level o (lx.state i) pos).blocks,
      Cascade.Overruns b.body →
        ∃ result line,
          Cascade.blockLines o (lx.state i) pos b =
            b.labels.map (fun c => s!"      case {c}:") ++
              ["         return " ++ result, line] := by
  rcases entriesApart_analyze hFresh hPasses with
    ⟨-, hApart⟩
  rcases builtFrom_build hBuild with ⟨c, hBuilt⟩
  have hCollects := collects_collect hApart hBuilt.collected
  constructor
  · exact (hBuilt.tabulates hCollects hInside).overruns_iff o
      pos labels
  · intro b hMem hOverruns
    rcases List.mem_map.mp hMem with ⟨entry, -, rfl⟩
    exact Cascade.blockLines_of_overruns hOverruns

end Built

------------------------------------------------------------
-- An example
------------------------------------------------------------

/- A literal that stands alone and one that is extended. -/
def operators : Grammar :=
  let steps : Build Unit := do
    let tokens ← Build.tokenSection (some [defaultState])
      .token false
    let plus ← Build.rxLiteral "+"
    Build.tokenSpec tokens plus none none
    let assign ← Build.rxLiteral "="
    Build.tokenSpec tokens assign none none
    let same ← Build.rxLiteral "=="
    Build.tokenSpec tokens same none none
  (steps.run {}).2.grammar

theorem fresh_operators :
    operators.Fresh := by
  apply Grammar.fresh_of_partsBefore
  · decide +kernel
  · decide +kernel

theorem overruns_level_operators :
    ∃ lx,
      (build (analyze operators {}).1
        (analyze operators {}).2.1).2 = .ok lx ∧
      ∀ o pos labels,
        ((∃ b ∈ (Cascade.level o (lx.state 0) pos).blocks,
            b.labels = labels ∧ Cascade.Overruns b.body) ↔
          pos = 0 ∧ ∃ c lit,
            LiteralTable.StandsAlone
              (lx.state 0).literals.literals
              (lx.state 0).literals.ignoreCase lit c ∧
            (lx.state 0).skipKeys.contains c = false ∧
            labels = (lx.state 0).literals.caseLabels c) ∧
        ∀ b ∈ (Cascade.level o (lx.state 0) pos).blocks,
          Cascade.Overruns b.body →
            ∃ result line,
              Cascade.blockLines o (lx.state 0) pos b =
                b.labels.map (fun c => s!"      case {c}:") ++
                  ["         return " ++ result, line] := by
  have hPasses : (analyze operators {}).2.2 = .ok () := by
    cbv
  have hStates : (build (analyze operators {}).1
      (analyze operators {}).2.1).2.toOption.any
        (fun lx => decide (0 < lx.states.size)) = true := by
    cbv
  generalize hAnalyze : analyze operators {} = analyzed
    at hPasses hStates ⊢
  rcases analyzed with ⟨g, s, passed⟩
  dsimp only at hPasses hStates ⊢
  generalize hBuild : build g s = outcome at hStates ⊢
  rcases outcome with ⟨s', built⟩
  cases built with
  | error e => cases hStates
  | ok lx =>
      rw [hPasses] at hAnalyze
      exact ⟨lx, rfl, overruns_level_iff fresh_operators
        hAnalyze hBuild (of_decide_eq_true hStates)⟩

/- Only the block of the literal that stands alone overruns. -/
example :
    (build (analyze operators {}).1
        (analyze operators {}).2.1).2.toOption.map
      (fun lx => (Cascade.level {} (lx.state 0) 0).blocks.map
        fun b => (b.labels, decide (Cascade.Overruns b.body))) =
      some [([43], true), ([61], false)] := by
  cbv

end Lexer

end Descent
