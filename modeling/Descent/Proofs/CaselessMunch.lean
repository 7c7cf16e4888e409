import Descent.Proofs.MaximalMunch

/-
  Longest matches where literals ignore case.

  Three places of a scanner keep to the case of literals: the
  entries of the table, the flags of literals that others
  extend, and what the automaton knows after a beginning of a
  literal.  Where case makes no difference to any of them, an
  attempt finds the longest match up to case, as it does for
  literals in which case counts.

  Main declarations:
    * `LexState.agreesByClasses`
    * `LexState.longest_of_passedFor`
    * `Lexer.longest_of_casesAgree`
-/

------------------------------------------------------------
-- States in which case makes no difference
------------------------------------------------------------

namespace Descent

open LiteralTable (foldLiteral)
open Text (caseVariants lowerUnit upperUnit)
open TokenTable (EntriesApart)

namespace LexState

/- Spellings of a text are read alike if they are classified so. -/
theorem reads_eq_of_classes
    {st : LexState}
    {image w : List Nat}
    (hClasses : ∀ d ∈ image, ∀ c ∈ caseVariants d,
      st.alphabet.classify c = st.alphabet.classify d)
    (hSpells : Spells true image w) :
    st.reads w = st.reads image := by
  have hReads : ∀ q, st.dfa.run st.alphabet q w =
      st.dfa.run st.alphabet q image := by
    induction hSpells with
    | nil => exact fun q => rfl
    | @cons d c image w hForm hRest ih =>
        have hTail := ih fun d' hd' =>
          hClasses d' (List.mem_cons_of_mem d hd')
        have hHere := hClasses d List.mem_cons_self c hForm
        intro q
        change (st.dfa.step? st.alphabet q c).bind _ =
          (st.dfa.step? st.alphabet q d).bind _
        unfold Dfa.step?
        rw [hHere]
        congr 1
        funext q'
        exact hTail q'
  exact hReads st.dfa.start

/- A literal that begins another up to case begins it as it is. -/
def spelledAlike
    (l l' : Literal) : Bool :=
  !(l.image.map lowerUnit).isPrefixOf
      (l'.image.map lowerUnit) ||
    l == l' ||
      (l.image.isPrefixOf l'.image &&
        decide (l.image.length < l'.image.length))

/-
  Whether the literals of a state are ASCII texts that are
  spelled alike, with the case forms of their characters in
  the same classes.
-/
def agreesByClasses
    (st : LexState) : Bool :=
  st.literals.literals.all fun l =>
    l.image.all (fun d => decide (d < 128) &&
      (caseVariants d).all fun c =>
        st.alphabet.classify c == st.alphabet.classify d) &&
    st.literals.literals.all (spelledAlike l)

/- Case makes no difference in a state that passes this test. -/
theorem casesAgree_of_agreesByClasses
    {st : LexState}
    (hAgrees : st.agreesByClasses = true) :
    st.CasesAgree := by
  unfold agreesByClasses at hAgrees
  simp only [List.all_eq_true, Bool.and_eq_true,
    decide_eq_true_eq, beq_iff_eq] at hAgrees
  constructor
  · intro l hIgnores d hd
    exact Text.paired_of_ascii
      ((hAgrees l hIgnores.1).1 d hd).1
  · intro l hIgnores l' hIgnores' hBegins
    have hSpelled := (hAgrees l hIgnores.1).2 l' hIgnores'.1
    rw [spelledAlike, List.isPrefixOf_iff_prefix.mpr hBegins]
      at hSpelled
    simpa using hSpelled
  · intro l hIgnores _ _ hSpells
    exact reads_eq_of_classes
      (fun d hd => ((hAgrees l hIgnores.1).1 d
        (List.mem_of_mem_take hd)).2) hSpells

------------------------------------------------------------
-- Characters that are passed over
------------------------------------------------------------

section Folded

variable {st : LexState} {ignoreCase : Bool}
variable {lits : List Literal} {A : Matching}
variable {f : Nat → Nat}
variable (hComposed : st.Composed ignoreCase lits A)
variable (hFolding : st.Folding ignoreCase lits f)

include hComposed in
/- The key of a character to pass over is one of its forms. -/
theorem exists_of_passedFor
    {kinds : Array (Option KindAttrs)}
    {c k : Nat}
    (hPassed : Lexer.PassedFor st kinds c k) :
    ∃ l ∈ lits, l.kind = k ∧ ∃ e, l.image = [e] ∧
      c ∈ LiteralTable.keysOf ignoreCase l.ignoreCase e := by
  rcases hPassed.entry with ⟨info, hMem, hEnded⟩
  have hEntries : st.literals.entries =
      (LiteralTable.build lits ignoreCase
        st.mixed).entries := by
    rw [hComposed.table]
    split <;> rfl
  rw [hEntries] at hMem
  rw [← LiteralTable.infoAt_of_mem
    (LiteralTable.sorted_build lits ignoreCase st.mixed) hMem]
    at hEnded
  rcases (LiteralTable.mem_part_build lits ignoreCase st.mixed 0
    c true k).mp hEnded with
    ⟨l, hl, hKind, ⟨e, hGet, hKey⟩, hLast⟩
  have hLength : l.image.length = 1 :=
    (of_decide_eq_true hLast.symm).symm
  rcases List.length_eq_one_iff.mp hLength with ⟨e', hImage⟩
  rw [hImage, List.getElem?_cons_zero, Option.some_inj] at hGet
  rw [hGet] at hImage
  exact ⟨l, ((LiteralTable.mem_literals_build _ _ _ l).mp hl).1,
    hKind, e, hImage, hKey⟩

include hFolding in
/- What is passed over like a key is a form of its character. -/
theorem mem_unitForms_of_passedLike
    {l : Literal}
    (hl : l ∈ lits)
    {c d e : Nat}
    (he : e ∈ l.image)
    (hKey :
      c ∈ LiteralTable.keysOf ignoreCase l.ignoreCase e)
    (hLike : Lexer.PassedLike ignoreCase c d) :
    d ∈ unitForms (l.ignoreCase || ignoreCase) e := by
  cases ignoreCase with
  | false =>
      rcases hLike with rfl | ⟨hFalse, -⟩
      · exact (LiteralTable.mem_keysOf_false_iff _ d e).mp hKey
      · cases hFalse
  | true =>
      have hPair := hFolding.literals.paired rfl l hl e he
      have hLower : c = lowerUnit e := List.mem_singleton.mp hKey
      subst hLower
      rw [Bool.or_true]
      apply hPair.mem_caseVariants_iff.mpr
      rcases hLike with rfl | ⟨-, rfl | rfl⟩
      · exact .inl rfl
      · exact .inr hPair.upper
      · exact .inl (Text.lowerUnit_lowerUnit e)

include hComposed hFolding in
/-
  A character that is passed over is the longest match of
  every text that begins with it.
-/
theorem longest_of_passedFor
    {kinds : Array (Option KindAttrs)}
    {c d k : Nat}
    (hPassed : Lexer.PassedFor st kinds c k)
    (hLike : Lexer.PassedLike ignoreCase c d)
    {us : List Nat}
    (hUnits : IsUnits (d :: us)) :
    Longest (st.OneOf (SpelledIn ignoreCase lits) A) (d :: us)
      1 k := by
  rcases exists_of_passedFor hComposed hPassed with
    ⟨l, hl, hKind, e, hImage, hKey⟩
  have he : e ∈ l.image := by
    rw [hImage]
    exact List.mem_cons_self
  have hForms := hFolding.literals.forms l hl e he
  -- The key and the character have the same image.
  have hSame : f d = f e := (hForms d).mp
    (mem_unitForms_of_passedLike hFolding hl he hKey hLike)
  have hSameKey : f c = f e := (hForms c).mp
    (mem_unitForms_of_passedLike hFolding hl he hKey
      (.inl rfl))
  have hSteps : ∀ x, f x = f e →
      st.dfa.step? st.alphabet st.dfa.start (f x) =
        st.dfa.step? st.alphabet st.dfa.start x := by
    intro x hx
    have hReads := hFolding.reads l hl [x] (by
      rw [hImage, List.map_singleton, List.map_singleton, hx])
    have hOne : ∀ y, st.reads [y] =
        st.dfa.step? st.alphabet st.dfa.start y :=
      fun y => bind_pure _
    rwa [List.map_singleton, hOne, hOne] at hReads
  have hStart : st.canStart d = false ∧
      (st.folded lits f).canStart (f d) = false := by
    have hKeyStart := hPassed.start
    unfold canStart at hKeyStart ⊢
    change (st.hasNfa && (st.dfa.step? st.alphabet
      st.dfa.start d).isSome) = false ∧
      (st.hasNfa && (st.dfa.step? st.alphabet
        st.dfa.start (f d)).isSome) = false
    rw [hSteps d hSame, ← hSteps d hSame, hSame, ← hSameKey,
      hSteps c hSameKey]
    exact ⟨hKeyStart, hKeyStart⟩
  have hSole : Spelled (lits.map (foldLiteral f)) k [f d] := by
    refine ⟨foldLiteral f l, List.mem_map_of_mem hl, hKind, ?_⟩
    change l.image.map f = [f d]
    rw [hImage, hSame]
    rfl
  have hFlag : (st.folded lits f).literals.isSubString k =
      false := by
    rw [isSubString_folded hComposed hFolding]
    exact hPassed.flag
  have hReported : (st.folded lits f).literals.reportedKind 0 k
      (st.folded lits f).anyChar = k :=
    (reportedKind_folded hComposed hFolding 0 k).trans
      hPassed.reported
  have hExact := exact_folded hComposed hFolding
  have hUnits' := isUnits_map hFolding hUnits
  have hLongest := Lexer.longest_of_sole hExact hSole hStart.2
    hFlag hReported hUnits'
  -- The automaton reads neither the text nor its image.
  have hReads : ∀ m, st.reads (((d :: us).take m).map f) =
      st.reads ((d :: us).take m) := by
    intro m
    cases m with
    | zero => rfl
    | succ m =>
        have hNone := Lexer.reads_cons_of_canStart
          hComposed.recognizes (hUnits d List.mem_cons_self)
          hStart.1 (us.take m)
        have hNone' := Lexer.reads_cons_of_canStart
          hExact.recognizes (hUnits' (f d) List.mem_cons_self)
          hStart.2 ((us.take m).map f)
        exact Eq.trans hNone' hNone.symm
  exact (longest_map hLongest).congr
    fun m _ => sameLeast_folded hComposed hFolding
      (hUnits.take m) (hReads m)

end Folded

end LexState

------------------------------------------------------------
-- Lexers and rules
------------------------------------------------------------

namespace Lexer

section Caseless

variable {g : Grammar} {s : Session} {c : Collected}
variable {lx : Lexer}

/- Characters that are passed over are matches of their own. -/
theorem BuiltFrom.longest_of_pass_caseless
    (hBuilt : BuiltFrom g s c lx)
    (hTree : g.RegexTree)
    {i : Nat}
    (hInside : i < lx.states.size)
    (hOrderly : Orderly g (c.active.getD i []))
    (hAgree : (lx.state i).CasesAgree)
    {d : Nat}
    {rest : List Nat}
    (hUnits : IsUnits (d :: rest))
    (hPass : Assoc.contains d (lx.state i).skipChars = true) :
    ∃ k, PlainSkip lx.kinds k ∧
      Longest (activeMatches g s.options.ignoreCase
        (c.active.getD i [])) (d :: rest) 1 k := by
  have hComposed := hBuilt.composed hTree hInside hOrderly
  have hFolding := LexState.folding_foldUnit hComposed hAgree
  have hSame := fun m (_ : m ≤ (d :: rest).length) =>
    hBuilt.sameLeast_parts hInside (hUnits.take m)
  rcases hBuilt.state i hInside with ⟨name, reached, hState⟩
  have hFound : ∃ key k, (key, k) ∈ findSkips
      (tablesOf g s.options.ignoreCase name i
        (c.active.getD i [])) c.kinds ∧
      PassedLike s.options.ignoreCase key d := by
    rw [hState] at hPass
    exact exists_of_contains_skipChars hPass
  rcases hFound with ⟨key, k, hSkip, hLike⟩
  have hPassed : PassedFor (lx.state i) c.kinds key k := by
    have hTable := passedFor_of_mem hSkip
    rw [hState]
    exact ⟨hTable.entry, hTable.start, hTable.flag,
      hTable.reported, hTable.plain⟩
  refine ⟨k, ?_, ?_⟩
  · rw [hBuilt.kinds]
    exact hPassed.plain
  · exact (LexState.longest_of_passedFor hComposed hFolding
      hPassed hLike hUnits).congr hSame

/- Attempts in such a state are longest matches. -/
theorem BuiltFrom.choose_caseless
    (hBuilt : BuiltFrom g s c lx)
    (hTree : g.RegexTree)
    {i : Nat}
    (hInside : i < lx.states.size)
    (hOrderly : Orderly g (c.active.getD i []))
    (hAgree : (lx.state i).CasesAgree)
    (hInit : (lx.state i).initMatch = none)
    {d : Nat}
    {rest : List Nat}
    (hUnits : IsUnits (d :: rest))
    (hPass : Assoc.contains d (lx.state i).skipChars = false) :
    (∃ n k,
      Longest (activeMatches g s.options.ignoreCase
          (c.active.getD i [])) (d :: rest) n k ∧
        ((lx.state i).attempt d rest).2.best =
          (k, (n : Int) - 1)) ∨
      (NoMatch (activeMatches g s.options.ignoreCase
          (c.active.getD i [])) (d :: rest) ∧
        ((lx.state i).attempt d rest).2.kind = noKind) := by
  have hComposed := hBuilt.composed hTree hInside hOrderly
  have hFolding := LexState.folding_foldUnit hComposed hAgree
  have hSame := fun m (_ : m ≤ (d :: rest).length) =>
    hBuilt.sameLeast_parts hInside (hUnits.take m)
  rcases LexState.answers_of_folding hComposed hFolding hInit
      hUnits (hBuilt.skipKeys hInside hPass) with
    ⟨n, k, hLongest, hBest⟩ | ⟨hNone, hBest⟩
  · exact .inl ⟨n, k, hLongest.congr hSame, hBest⟩
  · rw [LexState.blank_of_initMatch_none hInit] at hBest
    exact .inr ⟨NoneAfter.congr hSame hNone,
      congrArg Prod.fst hBest⟩

/- A lexer chooses longest matches in such a state. -/
theorem BuiltFrom.choosesIn
    (hBuilt : BuiltFrom g s c lx)
    (hTree : g.RegexTree)
    (hApart : EntriesApart g)
    (hCollects : Collects g s.tokenCount g.entries c)
    (hKinds : s.tokenCount ≤ noKind)
    {i : Nat}
    (hInside : i < lx.states.size)
    (hAgree : (lx.state i).CasesAgree)
    (hInit : (lx.state i).initMatch = none) :
    ChoosesIn lx (g.rules s) i := by
  have hOrderly := orderly_of_collects hApart hCollects hKinds i
  have hMatching := Grammar.matching_rules hCollects i
  constructor
  · intro d rest hUnits hPass
    rcases hBuilt.longest_of_pass_caseless hTree hInside
        hOrderly hAgree hUnits hPass with
      ⟨k, hPlain, hLongest⟩
    rw [← hMatching] at hLongest
    exact ⟨k, hLongest, hBuilt.skips_of_plainSkip hApart
      hCollects hPlain hLongest.kind.1⟩
  · intro d rest hUnits hPass
    rw [hMatching]
    exact hBuilt.choose_caseless hTree hInside hOrderly hAgree
      hInit hUnits hPass

/-
  Where case makes no difference and nothing matches the empty
  text, the choices in a lexical state are longest matches up
  to case: for every grammar that passes analysis and whose
  lexer can be built.  If all states are such, so are the
  tokens of every text.
-/
theorem longest_of_casesAgree
    {g₀ : Grammar}
    {s₀ s' : Session}
    (hFresh : g₀.Fresh)
    (hPasses : analyze g₀ s₀ = (g, s, .ok ()))
    (hBuild : build g s = (s', .ok lx))
    (hKinds : s.tokenCount ≤ noKind) :
    (∀ i < lx.states.size, (lx.state i).CasesAgree →
        (lx.state i).initMatch = none →
          ChoosesIn lx (g.rules s) i) ∧
      ((∀ i < lx.states.size, (lx.state i).CasesAgree ∧
          (lx.state i).initMatch = none) →
        ∀ (text : String) (o : Options) (sc : Scanner),
          Scanner.ofText lx text o = .ok sc →
            ∃ result sc' out,
              sc.tokens? = some (result, sc') ∧
                (∀ out',
                  Tokenizes (g.rules s) sc.input.units 0 0
                    out' ↔ out' = out) ∧
                Scanner.ReportsAll out result) := by
  rcases entriesApart_analyze hFresh hPasses with
    ⟨hTree, hApart⟩
  rcases builtFrom_build hBuild with ⟨c, hBuilt⟩
  have hCollects := collects_collect hApart hBuilt.collected
  have hChooses : ∀ i < lx.states.size,
      (lx.state i).CasesAgree →
        (lx.state i).initMatch = none →
          ChoosesIn lx (g.rules s) i :=
    fun i hInside hAgree hInit =>
      hBuilt.choosesIn hTree hApart hCollects hKinds hInside
        hAgree hInit
  refine ⟨hChooses, ?_⟩
  intro hAll text o sc hText
  have hFollows := hBuilt.follows_of hApart hCollects hKinds
    fun i hInside =>
      hChooses i hInside (hAll i hInside).1 (hAll i hInside).2
  exact tokens?_of_follows hFollows hText

end Caseless

------------------------------------------------------------
-- An example
------------------------------------------------------------

/- Two keywords, one of which begins the other, and names. -/
def keywords : Grammar :=
  let steps : Build Unit := do
    let tokens ← Build.tokenSection (some [defaultState])
      .token false
    let short ← Build.rxLiteral "if"
    Build.tokenSpec tokens short none none
    let long ← Build.rxLiteral "ifdef"
    Build.tokenSpec tokens long none none
    let letter ← Build.rxRange 0x61 0x7a
    let name ← Build.rxOneOrMore letter
    Build.tokenSpec tokens name none none
    let skipped ← Build.tokenSection (some [defaultState])
      .skip false
    let blank ← Build.rxLiteral " "
    Build.tokenSpec skipped blank none none
  (steps.run {}).2.grammar

/- A session in which every token ignores case. -/
def caseless : Session :=
  { options := { ignoreCase := true } }

theorem fresh_keywords :
    keywords.Fresh := by
  apply Grammar.fresh_of_partsBefore
  · decide +kernel
  · decide +kernel

/- The keywords are told apart in either case. -/
theorem longest_of_casesAgree_keywords :
    ∃ lx sc,
      (build (analyze keywords caseless).1
        (analyze keywords caseless).2.1).2 = .ok lx ∧
      Scanner.ofText lx "IFx IfDef" {} = .ok sc ∧
      ∃ result sc' out, sc.tokens? = some (result, sc') ∧
        (∀ out', Tokenizes
          ((analyze keywords caseless).1.rules
            (analyze keywords caseless).2.1)
          sc.input.units 0 0 out' ↔ out' = out) ∧
        Scanner.ReportsAll out result := by
  have hPasses : (analyze keywords caseless).2.2 = .ok () := by
    cbv
  have hCount :
      (analyze keywords caseless).2.1.tokenCount = 5 := by
    cbv
  have hStates : (build (analyze keywords caseless).1
      (analyze keywords caseless).2.1).2.toOption.any
        (fun lx => lx.states.toList.all fun st =>
          st.agreesByClasses && st.initMatch.isNone) = true := by
    cbv
  generalize hAnalyze : analyze keywords caseless = analyzed
    at hPasses hCount hStates ⊢
  rcases analyzed with ⟨g, s, passed⟩
  dsimp only at hPasses hCount hStates ⊢
  generalize hBuild : build g s = outcome at hStates ⊢
  rcases outcome with ⟨s', built⟩
  cases built with
  | error e => cases hStates
  | ok lx =>
      have hAll : ∀ i < lx.states.size,
          (lx.state i).CasesAgree ∧
            (lx.state i).initMatch = none := by
        intro i hInside
        have hState := List.all_eq_true.mp hStates
          lx.states[i] (by simp)
        rw [Bool.and_eq_true] at hState
        unfold state
        rw [Array.getD_eq_getD_getElem?,
          Array.getElem?_eq_getElem hInside]
        exact ⟨LexState.casesAgree_of_agreesByClasses hState.1,
          Option.isNone_iff_eq_none.mp hState.2⟩
      have hText : Scanner.ofText lx "IFx IfDef" {} = .ok
          { lexer := lx,
            input :=
              { units := (placeUnits (.start 1)
                  (Text.units "IFx IfDef")).toArray } } := rfl
      rw [hPasses] at hAnalyze
      refine ⟨lx, _, rfl, hText, ?_⟩
      exact (longest_of_casesAgree fresh_keywords hAnalyze hBuild
        (by rw [hCount]; decide)).2 hAll _ _ _ hText

/- Two literals, one of which begins the other but for case. -/
def spelledApart : Grammar :=
  let steps : Build Unit := do
    let tokens ← Build.tokenSection (some [defaultState])
      .token true
    let short ← Build.rxLiteral "AB"
    Build.tokenSpec tokens short none none
    let long ← Build.rxLiteral "abc"
    Build.tokenSpec tokens long none none
  (steps.run {}).2.grammar

/- Of `abc` the attempt takes two characters as the first one. -/
example :
    (build (analyze spelledApart {}).1
        (analyze spelledApart {}).2.1).2.toOption.map
      (fun lx =>
        ((lx.state 0).attempt 0x61 [0x62, 0x63]).2.best) =
      some (1, 1) := by
  cbv

end Lexer

end Descent
