import Descent.Proofs.Tokenizer
import Descent.Proofs.Units

/-
  Scanners that choose longest matches.

  A scanner follows some rules when its attempts find the
  longest matches by these rules and when it passes over a
  character only if the longest match is that character and is
  skipped.  Every step then takes at least one unit, so the
  bound on the number of steps is never met, and the tokens
  are those of the rules.

  Main declarations:
    * `Follows`
    * `Scanner.steps_spec`
    * `Scanner.tokens?_spec`
-/

------------------------------------------------------------
-- Lexers that follow rules
------------------------------------------------------------

namespace Descent

open Text (maxUnit)

/- The choices of a lexer are longest matches by some rules. -/
structure Follows
    (lx : Lexer)
    (r : Rules) : Prop where
  pass :
    ∀ i c rest, IsUnits (c :: rest) →
      Assoc.contains c (lx.state i).skipChars = true →
        ∃ k, Longest (r.matching i) (c :: rest) 1 k ∧
          r.cls k = .skip ∧ r.next k = none
  choose :
    ∀ i c rest, IsUnits (c :: rest) →
      Assoc.contains c (lx.state i).skipChars = false →
        (∃ n k, Longest (r.matching i) (c :: rest) n k ∧
            ((lx.state i).attempt c rest).2.best =
              (k, (n : Int) - 1)) ∨
          (NoMatch (r.matching i) (c :: rest) ∧
            ((lx.state i).attempt c rest).2.kind = noKind)
  past : ∀ i, (lx.state i).KnowsPast
  attrs :
    ∀ i k w, r.matching i k w →
      ((lx.attrs? k).map (·.cls)).getD .token = r.cls k ∧
        (lx.attrs? k).bind (·.nextState) = r.next k
  kinds :
    ∀ i k w, r.matching i k w →
      k ≠ 0 ∧ k ≠ noKind

/- A state that a lexer does not have is an empty one. -/
theorem Lexer.state_of_size_le
    {lx : Lexer}
    {i : Nat}
    (hOutside : lx.states.size ≤ i) :
    lx.state i = default := by
  unfold state
  rw [Array.getD_eq_getD_getElem?,
    Array.getElem?_eq_none hOutside]
  rfl

namespace Scanner

section Following

variable {lx : Lexer} {r : Rules} {us : Array SourceUnit}

/- A scanner before a token. -/
structure Rests
    (lx : Lexer)
    (us : Array SourceUnit)
    (sc : Scanner)
    (q offset : Nat)
    (lexemes : List Lexeme) : Prop where
  lexer : sc.lexer = lx
  units : sc.input.units = us
  next : sc.input.next = offset
  state : sc.state = q
  specials : sc.specials = lexemes
  inside : offset ≤ us.size

/- A scanner that has read the first unit of a match. -/
structure Stands
    (lx : Lexer)
    (us : Array SourceUnit)
    (sc : Scanner)
    (q start offset : Nat)
    (lexemes : List Lexeme) : Prop where
  lexer : sc.lexer = lx
  units : sc.input.units = us
  next : sc.input.next = offset + 1
  tokenBegin : sc.input.tokenBegin = start
  state : sc.state = q
  specials : sc.specials = lexemes
  started : start ≤ offset
  text :
    unitsFrom us offset =
      sc.current :: unitsFrom us (offset + 1)

theorem rest_eq
    (i : Input) :
    i.rest = unitsFrom i.units i.next := by
  unfold Input.rest unitsFrom
  rw [Array.toList_map, Array.toList_extract,
    List.extract_eq_take_drop]
  congr 1
  rw [List.take_of_length_le]
  simp

theorem unitsFrom_eq_cons
    {offset : Nat}
    {u : SourceUnit}
    (hGet : us[offset]? = some u) :
    unitsFrom us offset =
      u.unit :: unitsFrom us (offset + 1) := by
  rcases Array.getElem?_eq_some_iff.mp hGet with ⟨hInside, hu⟩
  unfold unitsFrom
  rw [List.drop_eq_getElem_cons
    (by rwa [Array.length_toList]), List.map_cons,
    Array.getElem_toList, hu]

theorem Stands.inside
    {sc : Scanner}
    {state start offset : Nat}
    {specials : List Lexeme}
    (hStands : Stands lx us sc state start offset specials) :
    offset < us.size := by
  have hLength := congrArg List.length hStands.text
  rw [length_unitsFrom, List.length_cons] at hLength
  omega

theorem isUnits_unitsFrom
    (hUnits : ∀ u ∈ us.toList, u.unit ≤ maxUnit)
    (offset : Nat) :
    IsUnits (unitsFrom us offset) := by
  intro c hc
  rcases List.mem_map.mp hc with ⟨u, hu, rfl⟩
  exact hUnits u (List.mem_of_mem_drop hu)

theorem image_eq
    (i : Input) :
    i.image =
      (unitsFrom i.units i.tokenBegin).take
        (i.next - i.tokenBegin) := by
  unfold Input.image unitsFrom
  rw [Array.toList_map, Array.toList_extract,
    List.extract_eq_take_drop, List.map_take]

theorem lexeme_eq
    (sc : Scanner)
    (kind : Kind) :
    sc.lexeme kind =
      lexemeAt sc.input.units kind sc.input.tokenBegin
        sc.input.next := by
  unfold lexeme lexemeAt
  rw [image_eq]
  rfl

------------------------------------------------------------
-- One attempt
------------------------------------------------------------

/- A scanner that has taken a match. -/
structure Took
    (lx : Lexer)
    (us : Array SourceUnit)
    (sc : Scanner)
    (q start stop : Nat)
    (lexemes : List Lexeme) : Prop where
  lexer : sc.lexer = lx
  units : sc.input.units = us
  next : sc.input.next = stop
  tokenBegin : sc.input.tokenBegin = start
  state : sc.state = q
  specials : sc.specials = lexemes

theorem Took.lexeme_eq
    {sc : Scanner}
    {q start stop : Nat}
    {specials : List Lexeme}
    (hTook : Took lx us sc q start stop specials)
    (k : Nat) :
    sc.lexeme k = lexemeAt us k start stop := by
  rw [Scanner.lexeme_eq, hTook.units, hTook.tokenBegin,
    hTook.next]

theorem Took.token_eq
    {sc : Scanner}
    {q start stop : Nat}
    {specials : List Lexeme}
    (hTook : Took lx us sc q start stop specials)
    (k : Nat) :
    sc.token k = (⟨lexemeAt us k start stop, specials⟩,
      { sc with specials := [] }) := by
  unfold token
  rw [hTook.lexeme_eq, hTook.specials]

/- What was read beyond a match is given back. -/
theorem input_consume
    {sc : Scanner}
    {q start offset : Nat}
    {specials : List Lexeme}
    (hStands : Stands lx us sc q start offset specials)
    (looked : Nat)
    {a : Attempt}
    (hKind : a.kind ≠ noKind) :
    (sc.consume looked a).input =
      { sc.input with
        next := if (looked : Int) - a.pos - 1 > 0 then
            max (offset + 1 + a.read -
              ((looked : Int) - a.pos - 1).toNat) start
          else offset + 1 + a.read } := by
  have hBne : (a.kind != noKind) = true := by
    simpa using hKind
  unfold consume
  dsimp only
  rw [hBne, Bool.true_and, hStands.next]
  split
  · next hExtra =>
      rw [decide_eq_true_eq] at hExtra
      rw [if_pos hExtra]
      unfold Input.backup
      dsimp only
      rw [hStands.tokenBegin]
  · next hExtra =>
      rw [decide_eq_true_eq] at hExtra
      rw [if_neg hExtra]

theorem took_consume
    {sc : Scanner}
    {q start offset : Nat}
    {specials : List Lexeme}
    (hStands : Stands lx us sc q start offset specials)
    (looked : Nat)
    {a : Attempt}
    (hKind : a.kind ≠ noKind) :
    Took lx us (sc.consume looked a) q start
      (sc.consume looked a).input.next specials := by
  have hInput := input_consume hStands looked hKind
  refine ⟨hStands.lexer, ?_, rfl, ?_, hStands.state,
    hStands.specials⟩
  · rw [hInput]
    exact hStands.units
  · rw [hInput]
    exact hStands.tokenBegin

/- An attempt takes as many units as its match has. -/
theorem next_consume
    {sc : Scanner}
    {q start offset n : Nat}
    {specials : List Lexeme}
    (hStands : Stands lx us sc q start offset specials)
    {rest : Nat}
    {result : Nat × Attempt}
    (hTracks : LexState.Tracks (lx.state q) rest result)
    (hPast : (lx.state q).KnowsPast)
    (hPos : result.2.pos = (n : Int) - 1)
    (hKind : result.2.kind ≠ noKind) :
    (sc.consume result.1 result.2).input.next =
      offset + n := by
  have hLooked := hTracks.looked
  have hMost := hTracks.most hPast
  have hStarted := hStands.started
  rw [hPos] at hMost
  rw [input_consume hStands _ hKind, hLooked, hPos]
  dsimp only
  split
  · omega
  · omega

/- An attempt fails, or takes the longest match. -/
theorem attemptHere_spec
    (hFollows : Follows lx r)
    (hUnits : ∀ u ∈ us.toList, u.unit ≤ maxUnit)
    {sc : Scanner}
    {state start offset : Nat}
    {specials : List Lexeme}
    (hStands : Stands lx us sc state start offset specials)
    (hPass : Assoc.contains sc.current
      (lx.state state).skipChars = false) :
    (NoMatch (r.matching state) (unitsFrom us offset) ∧
        ∃ name place found sc',
          sc.attemptHere =
            (.done (.error (.lexical name place found)),
              sc')) ∨
      ∃ n k sc',
        Longest (r.matching state) (unitsFrom us offset) n k ∧
          sc.attemptHere = sc'.deliver k ∧
          Took lx us sc' state start (offset + n) specials := by
  have hText := isUnits_unitsFrom hUnits offset
  have hRest : sc.input.rest = unitsFrom us (offset + 1) := by
    rw [rest_eq, hStands.units, hStands.next]
  have hState : sc.lexState = lx.state state := by
    unfold lexState
    rw [hStands.lexer, hStands.state]
  rw [hStands.text] at hText ⊢
  have hTracks := LexState.attempt_tracks (lx.state state)
    sc.current (unitsFrom us (offset + 1))
  have hChoose := hFollows.choose state sc.current
    (unitsFrom us (offset + 1)) hText hPass
  unfold attemptHere
  dsimp only
  rw [hState, hRest]
  generalize (lx.state state).attempt sc.current
    (unitsFrom us (offset + 1)) = result at hTracks hChoose ⊢
  rcases result with ⟨looked, a⟩
  dsimp only at hChoose ⊢
  rcases hChoose with ⟨n, k, hLongest, hBest⟩ | ⟨hNone, hKind⟩
  · right
    have hKind : a.kind = k := congrArg Prod.fst hBest
    have hPos : a.pos = (n : Int) - 1 := congrArg Prod.snd hBest
    have hn : 0 < n := hLongest.longer
    have hSome := (hFollows.kinds state k _
      hLongest.kind.1).2
    have hReal : a.kind ≠ noKind := by
      rw [hKind]
      exact hSome
    have hTook := took_consume hStands looked hReal
    rw [next_consume hStands hTracks (hFollows.past state) hPos
      hReal] at hTook
    refine ⟨n, k, sc.consume looked a, hLongest, ?_, hTook⟩
    rw [hKind, if_neg (by simpa using hSome),
      if_neg (by omega)]
  · left
    refine ⟨hNone, ?_⟩
    rw [if_pos (by simpa using hKind)]
    exact ⟨_, _, _, _, rfl⟩

------------------------------------------------------------
-- After a match
------------------------------------------------------------

/- What becomes of a match, by its class. -/
def Delivers
    (lx : Lexer)
    (us : Array SourceUnit)
    (cls : TokenClass)
    (q start stop k : Nat)
    (specials : List Lexeme)
    (outcome : Step × Scanner) : Prop :=
  match cls with
  | .token =>
      ∃ sc', outcome = (.done (.ok
          ⟨lexemeAt us k start stop, specials⟩), sc') ∧
        Rests lx us sc' q stop []
  | .special =>
      ∃ sc', outcome = (.restart, sc') ∧
        Rests lx us sc' q stop
          (specials ++ [lexemeAt us k start stop])
  | .skip =>
      ∃ sc', outcome = (.restart, sc') ∧
        Rests lx us sc' q stop specials
  | .more =>
      if stop < us.size then
        ∃ sc', outcome = (.proceed, sc') ∧
          Stands lx us sc' q start stop specials
      else
        ∃ name place found sc', outcome =
          (.done (.error (.lexical name place found)), sc')

theorem read_inside
    {i : Input}
    {c : Nat}
    {rest : List Nat}
    (hText : unitsFrom i.units i.next = c :: rest) :
    i.read = (some c, { i with next := i.next + 1 }) := by
  have hLength := congrArg List.length hText
  rw [length_unitsFrom, List.length_cons] at hLength
  have hInside : i.next < i.units.size := by omega
  have hGet := Array.getElem?_eq_getElem hInside
  rw [unitsFrom_eq_cons hGet, List.cons.injEq] at hText
  unfold Input.read
  rw [hGet]
  dsimp only
  rw [hText.1]

theorem read_at_end
    {i : Input}
    (hEnd : i.units.size ≤ i.next) :
    i.read = (none, i) := by
  unfold Input.read
  rw [Array.getElem?_eq_none hEnd]

/- Another unit is read where the text goes on. -/
theorem exists_unitsFrom_eq_cons
    {offset : Nat}
    (hInside : offset < us.size) :
    ∃ c, unitsFrom us offset =
      c :: unitsFrom us (offset + 1) :=
  ⟨_, unitsFrom_eq_cons (Array.getElem?_eq_getElem hInside)⟩

theorem delivers_deliver
    {sc : Scanner}
    {q start stop k : Nat}
    {specials : List Lexeme}
    (hTook : Took lx us sc q start stop specials)
    {cls : TokenClass}
    {next : Option Nat}
    (hClass : ((lx.attrs? k).map (·.cls)).getD .token = cls)
    (hNext : (lx.attrs? k).bind (·.nextState) = next)
    (hStarted : start ≤ stop)
    (hStop : stop ≤ us.size) :
    Delivers lx us cls (next.getD q) start stop k specials
      (sc.deliver k) := by
  have hAttrs : sc.lexer.attrs? k = lx.attrs? k := by
    rw [hTook.lexer]
  have hEnter : next.getD sc.state = next.getD q := by
    rw [hTook.state]
  unfold deliver Delivers
  dsimp only
  rw [hAttrs, hClass, hNext]
  cases cls with
  | token =>
      rw [hTook.token_eq]
      exact ⟨_, rfl, hTook.lexer, hTook.units, hTook.next,
        hEnter, rfl, hStop⟩
  | special =>
      refine ⟨_, rfl, hTook.lexer, hTook.units, hTook.next,
        hEnter, ?_, hStop⟩
      rw [← hTook.specials, ← hTook.lexeme_eq]
      rfl
  | skip =>
      exact ⟨sc.enter next, rfl, hTook.lexer, hTook.units,
        hTook.next, hEnter, hTook.specials, hStop⟩
  | more =>
      have hUnits : (sc.enter next).input.units = us :=
        hTook.units
      have hHere : (sc.enter next).input.next = stop :=
        hTook.next
      dsimp only
      split
      · next hMore =>
          rcases exists_unitsFrom_eq_cons hMore with ⟨c, hText⟩
          rw [read_inside (by rw [hUnits, hHere]; exact hText)]
          refine ⟨_, rfl, hTook.lexer, hTook.units, ?_,
            hTook.tokenBegin, hEnter, hTook.specials,
            hStarted, hText⟩
          dsimp only
          rw [hHere]
      · next hEnd =>
          rw [read_at_end
            (by rw [hUnits, hHere]; exact not_lt.mp hEnd)]
          exact ⟨_, _, _, _, rfl⟩

------------------------------------------------------------
-- Steps
------------------------------------------------------------

/-
  What an outcome means for the token that is sought: it is
  found, there is none, or the search goes on further into the
  text.
-/
inductive Leads
    (lx : Lexer)
    (r : Rules)
    (us : Array SourceUnit)
    (q start offset : Nat)
    (specials : List Lexeme) : Step × Scanner → Prop where
  | failure
      {name found : String}
      {place : Location}
      {sc : Scanner}
      (hScans : Scans r us q start offset specials .failure) :
      Leads lx r us q start offset specials
        (.done (.error (.lexical name place found)), sc)
  | endOfFile
      {t : Token}
      {sc : Scanner}
      (hKind : t.lexeme.kind = 0)
      (hScans :
        Scans r us q start offset specials (.endOfFile t)) :
      Leads lx r us q start offset specials
        (.done (.ok t), sc)
  | token
      {t : Token}
      {q' offset' : Nat}
      {sc : Scanner}
      (hKind : t.lexeme.kind ≠ 0)
      (hScans : Scans r us q start offset specials
        (.token t q' offset'))
      (hRests : Rests lx us sc q' offset' []) :
      Leads lx r us q start offset specials
        (.done (.ok t), sc)
  | restart
      {q' offset' : Nat}
      {specials' : List Lexeme}
      {sc : Scanner}
      (hLater : offset < offset')
      (hRests : Rests lx us sc q' offset' specials')
      (hScans : ∀ out,
        Scans r us q' offset' offset' specials' out →
          Scans r us q start offset specials out) :
      Leads lx r us q start offset specials (.restart, sc)
  | proceed
      {q' start' offset' : Nat}
      {specials' : List Lexeme}
      {sc : Scanner}
      (hLater : offset < offset')
      (hStands : Stands lx us sc q' start' offset' specials')
      (hScans : ∀ out,
        Scans r us q' start' offset' specials' out →
          Scans r us q start offset specials out) :
      Leads lx r us q start offset specials (.proceed, sc)

/- A search may be led from an earlier place. -/
theorem Leads.earlier
    {q start offset q' start' offset' : Nat}
    {specials specials' : List Lexeme}
    {outcome : Step × Scanner}
    (hLeads :
      Leads lx r us q' start' offset' specials' outcome)
    (hLater : offset ≤ offset')
    (hScans : ∀ out,
      Scans r us q' start' offset' specials' out →
        Scans r us q start offset specials out) :
    Leads lx r us q start offset specials outcome := by
  cases hLeads with
  | failure hFails => exact .failure (hScans _ hFails)
  | endOfFile hKind hEnds =>
      exact .endOfFile hKind (hScans _ hEnds)
  | token hKind hToken hRests =>
      exact .token hKind (hScans _ hToken) hRests
  | restart hMore hRests hThen =>
      exact .restart (lt_of_le_of_lt hLater hMore) hRests
        fun out h => hScans out (hThen out h)
  | proceed hMore hStands hThen =>
      exact .proceed (lt_of_le_of_lt hLater hMore) hStands
        fun out h => hScans out (hThen out h)

/- An attempt where no unit is passed over. -/
theorem leads_attemptHere
    (hFollows : Follows lx r)
    (hUnits : ∀ u ∈ us.toList, u.unit ≤ maxUnit)
    {sc : Scanner}
    {q start offset : Nat}
    {specials : List Lexeme}
    (hStands : Stands lx us sc q start offset specials)
    (hPass : Assoc.contains sc.current
      (lx.state q).skipChars = false) :
    Leads lx r us q start offset specials sc.attemptHere := by
  rcases attemptHere_spec hFollows hUnits hStands hPass with
    ⟨hNone, name, place, found, sc', hEq⟩ |
      ⟨n, k, sc', hLongest, hEq, hTook⟩
  · rw [hEq]
    exact .failure (.noMatch hStands.inside hNone)
  · rw [hEq]
    have hMatch := hLongest.kind.1
    have hAttrs := hFollows.attrs q k _ hMatch
    have hKind := (hFollows.kinds q k _ hMatch).1
    have hExtent := inside_of_longest hLongest
    have hStarted := hStands.started
    have hDelivers := delivers_deliver hTook hAttrs.1 hAttrs.2
      (by omega) hExtent.2
    have hFurther : offset < offset + n := by omega
    unfold Delivers at hDelivers
    cases hClass : r.cls k with
    | token =>
        rw [hClass] at hDelivers
        rcases hDelivers with ⟨sc'', hOutcome, hRests⟩
        rw [hOutcome]
        exact .token hKind (.token hLongest hClass) hRests
    | special =>
        rw [hClass] at hDelivers
        rcases hDelivers with ⟨sc'', hOutcome, hRests⟩
        rw [hOutcome]
        exact .restart hFurther hRests
          fun out h => .special hLongest hClass h
    | skip =>
        rw [hClass] at hDelivers
        rcases hDelivers with ⟨sc'', hOutcome, hRests⟩
        rw [hOutcome]
        exact .restart hFurther hRests
          fun out h => .skip hLongest hClass h
    | more =>
        rw [hClass] at hDelivers
        dsimp only at hDelivers
        split at hDelivers
        · next hMore =>
            rcases hDelivers with ⟨sc'', hOutcome, hGoes⟩
            rw [hOutcome]
            exact .proceed hFurther hGoes
              fun out h => .more hLongest hClass hMore h
        · next hEnd =>
            rcases hDelivers with
              ⟨name, place, found, sc'', hOutcome⟩
            rw [hOutcome]
            exact .failure
              (.moreAtEnd hLongest hClass (not_lt.mp hEnd))

------------------------------------------------------------
-- Passing over units
------------------------------------------------------------

/- The units that are passed over, and what comes after. -/
theorem passOver_spec
    (st : LexState)
    (current : Nat)
    (rest : List Nat) :
    ∃ passed tail, current :: rest = passed ++ tail ∧
      passOver st current rest =
        (passed.length, tail.head?) ∧
      (∀ c ∈ passed,
        Assoc.contains c st.skipChars = true) ∧
      ∀ c ∈ tail.head?,
        Assoc.contains c st.skipChars = false := by
  induction rest generalizing current with
  | nil =>
      by_cases hSkip : Assoc.contains current st.skipChars
      · refine ⟨[current], [], rfl, ?_, ?_, ?_⟩
        · rw [passOver, if_pos hSkip]
          rfl
        · intro c hc
          rwa [List.mem_singleton.mp hc]
        · intro c hc
          cases hc
      · refine ⟨[], [current], rfl, ?_, ?_, ?_⟩
        · rw [passOver, if_neg hSkip]
          rfl
        · intro c hc
          cases hc
        · intro c hc
          rw [← Option.mem_some.mp hc]
          exact Bool.eq_false_iff.mpr hSkip
  | cons c' rest ih =>
      by_cases hSkip : Assoc.contains current st.skipChars
      · rcases ih c' with ⟨passed, tail, hEq, hPass, hAll, hHead⟩
        refine ⟨current :: passed, tail, ?_, ?_, ?_, hHead⟩
        · rw [hEq, List.cons_append]
        · rw [passOver, if_pos hSkip, hPass]
          rfl
        · intro c hc
          rcases List.mem_cons.mp hc with rfl | hc
          · exact hSkip
          · exact hAll c hc
      · refine ⟨[], current :: c' :: rest, rfl, ?_, ?_, ?_⟩
        · rw [passOver, if_neg hSkip]
          rfl
        · intro c hc
          cases hc
        · intro c hc
          rw [← Option.mem_some.mp hc]
          exact Bool.eq_false_iff.mpr hSkip

theorem unitsFrom_add
    {offset : Nat}
    {front tail : List Nat}
    (hText : unitsFrom us offset = front ++ tail) :
    unitsFrom us (offset + front.length) = tail := by
  have hDrop := congrArg (List.drop front.length) hText
  rw [List.drop_left] at hDrop
  rw [← hDrop]
  unfold unitsFrom
  rw [← List.drop_drop, List.map_drop]

/-
  A unit that is passed over is a skipped match of one unit,
  after which a token begins anew.
-/
theorem scans_of_pass
    (hFollows : Follows lx r)
    (hUnits : ∀ u ∈ us.toList, u.unit ≤ maxUnit)
    {q c start offset : Nat}
    {specials : List Lexeme}
    {out : Outcome}
    {tail : List Nat}
    (hText : unitsFrom us offset = c :: tail)
    (hPass : Assoc.contains c (lx.state q).skipChars = true)
    (hScans : Scans r us q (offset + 1) (offset + 1)
      specials out) :
    Scans r us q start offset specials out := by
  have hFirst := isUnits_unitsFrom hUnits offset
  rw [hText] at hFirst
  rcases hFollows.pass q c tail hFirst hPass with
    ⟨k, hLongest, hClass, hNext⟩
  rw [← hText] at hLongest
  apply Scans.skip hLongest hClass
  rwa [hNext, Option.getD_none]

theorem scans_of_passed
    (hFollows : Follows lx r)
    (hUnits : ∀ u ∈ us.toList, u.unit ≤ maxUnit)
    {q c start offset : Nat}
    {specials : List Lexeme}
    {out : Outcome}
    {passed tail : List Nat}
    (hText : unitsFrom us offset = c :: passed ++ tail)
    (hPassed : ∀ d ∈ c :: passed,
      Assoc.contains d (lx.state q).skipChars = true)
    (hScans : Scans r us q (offset + (passed.length + 1))
      (offset + (passed.length + 1)) specials out) :
    Scans r us q start offset specials out := by
  have hFirst := hPassed c List.mem_cons_self
  induction passed generalizing c start offset with
  | nil =>
      apply scans_of_pass hFollows hUnits hText hFirst
      exact hScans
  | cons d passed ih =>
      have hPassed' : ∀ e ∈ d :: passed,
          Assoc.contains e (lx.state q).skipChars = true :=
        fun e he => hPassed e (List.mem_cons_of_mem c he)
      have hSplit : unitsFrom us offset =
          [c] ++ (d :: passed ++ tail) := hText
      have hRest := unitsFrom_add hSplit
      rw [List.length_singleton] at hRest
      have hAll : offset + ((d :: passed).length + 1) =
          offset + 1 + (passed.length + 1) := by
        rw [List.length_cons]
        omega
      rw [hAll] at hScans
      apply scans_of_pass hFollows hUnits hText hFirst
      exact ih hRest hPassed' hScans
        (hPassed' d List.mem_cons_self)

/-
  A step passes over some units, if there are any to pass
  over, and makes an attempt if that is not all of the text.
-/
theorem step_spec
    {sc : Scanner}
    {q start offset : Nat}
    {specials : List Lexeme}
    (hStands : Stands lx us sc q start offset specials) :
    (Assoc.contains sc.current (lx.state q).skipChars = false ∧
        sc.step = sc.attemptHere) ∨
      ∃ c passed tail sc',
        unitsFrom us offset = c :: passed ++ tail ∧
        (∀ d ∈ c :: passed,
          Assoc.contains d (lx.state q).skipChars = true) ∧
        sc'.lastEmpty = sc.lastEmpty ∧
        ((sc.step = (.restart, sc') ∧
            Rests lx us sc' q (offset + (passed.length + 1))
              specials) ∨
          (sc.step = sc'.attemptHere ∧
            Stands lx us sc' q (offset + (passed.length + 1))
              (offset + (passed.length + 1)) specials ∧
            Assoc.contains sc'.current
              (lx.state q).skipChars = false)) := by
  have hState : sc.lexState = lx.state q := by
    unfold lexState
    rw [hStands.lexer, hStands.state]
  have hRest : sc.input.rest = unitsFrom us (offset + 1) := by
    rw [rest_eq, hStands.units, hStands.next]
  rcases passOver_spec (lx.state q) sc.current
    (unitsFrom us (offset + 1)) with
    ⟨passed, tail, hText, hPass, hPassed, hHead⟩
  rw [← hStands.text] at hText
  unfold step
  rw [hState, hRest, hPass]
  dsimp only
  cases passed with
  | nil =>
      left
      have hTail := hText.symm.trans hStands.text
      rw [List.nil_append] at hTail
      rw [List.length_nil, if_pos (beq_self_eq_true 0)]
      refine ⟨?_, rfl⟩
      apply hHead
      rw [hTail]
      rfl
  | cons c passed =>
      right
      have hAfter := unitsFrom_add hText
      have hThere : sc.input.next + (c :: passed).length - 1 =
          offset + (passed.length + 1) := by
        rw [hStands.next, List.length_cons]
        omega
      have hLength := congrArg List.length hText
      rw [length_unitsFrom, List.length_append,
        List.length_cons] at hLength
      rw [if_neg (by rw [List.length_cons]; simp), hThere]
      cases tail with
      | nil =>
          have hEnd :
              offset + (passed.length + 1) ≤ us.size := by
            omega
          refine ⟨c, passed, [], _, hText, hPassed, ?_,
            .inl ⟨rfl, hStands.lexer, hStands.units, rfl,
              hStands.state, hStands.specials, hEnd⟩⟩
          rfl
      | cons d tail =>
          have hInside :
              offset + (passed.length + 1) < us.size := by
            rw [List.length_cons] at hLength
            omega
          rcases exists_unitsFrom_eq_cons hInside with ⟨e, hd⟩
          rw [List.length_cons, hd, List.cons.injEq] at hAfter
          rw [hAfter.1] at hd
          refine ⟨c, passed, d :: tail, _, hText, hPassed, ?_,
            .inr ⟨rfl, ⟨hStands.lexer, hStands.units, rfl,
              rfl, hStands.state, hStands.specials,
              le_refl _, hd⟩, hHead d rfl⟩⟩
          rfl

/- A token begins with the next unit, or the file ends. -/
theorem begin_spec
    {sc : Scanner}
    {q offset : Nat}
    {specials : List Lexeme}
    (hRests : Rests lx us sc q offset specials) :
    (∃ sc', sc.begin = sc'.step ∧
        Stands lx us sc' q offset offset specials ∧
        sc'.lastEmpty = sc.lastEmpty) ∨
      (us.size ≤ offset ∧ ∃ sc', sc.begin =
        (.done (.ok ⟨lexemeAt us 0 offset offset, specials⟩),
          sc')) := by
  unfold begin Input.beginToken
  by_cases hInside : offset < us.size
  · left
    rcases exists_unitsFrom_eq_cons hInside with ⟨c, hText⟩
    have hHere := hText
    rw [← hRests.units, ← hRests.next] at hHere
    have hRead := @read_inside
      { sc.input with tokenBegin := sc.input.next } _ _ hHere
    rw [hRead]
    refine ⟨_, rfl, ⟨hRests.lexer, hRests.units, ?_,
      hRests.next, hRests.state, hRests.specials, le_refl _,
      hText⟩, rfl⟩
    dsimp only
    rw [hRests.next]
  · right
    have hEnd : us.size ≤ offset := not_lt.mp hInside
    rw [read_at_end (by rw [hRests.units, hRests.next]; exact hEnd)]
    have hTook : Took lx us
        ({ sc with input :=
          { sc.input with tokenBegin := sc.input.next } }.enter
            sc.lexer.eofNextState)
        (sc.lexer.eofNextState.getD sc.state) offset offset
        specials :=
      ⟨hRests.lexer, hRests.units, hRests.next, hRests.next,
        rfl, hRests.specials⟩
    dsimp only
    unfold endToken
    rw [hTook.token_eq]
    exact ⟨hEnd, _, rfl⟩

/- One step from the first unit of a match. -/
theorem leads_step
    (hFollows : Follows lx r)
    (hUnits : ∀ u ∈ us.toList, u.unit ≤ maxUnit)
    {sc : Scanner}
    {q start offset : Nat}
    {specials : List Lexeme}
    (hStands : Stands lx us sc q start offset specials) :
    Leads lx r us q start offset specials sc.step := by
  rcases step_spec hStands with ⟨hPass, hStep⟩ |
    ⟨c, passed, tail, sc', hText, hPassed, -, hStep⟩
  · rw [hStep]
    exact leads_attemptHere hFollows hUnits hStands hPass
  · have hScans : ∀ out, Scans r us q
        (offset + (passed.length + 1))
        (offset + (passed.length + 1)) specials out →
          Scans r us q start offset specials out :=
      fun out => scans_of_passed hFollows hUnits hText hPassed
    rcases hStep with ⟨hStep, hRests⟩ | ⟨hStep, hLater, hPass⟩
    · rw [hStep]
      exact .restart (by omega) hRests hScans
    · rw [hStep]
      apply Leads.earlier _ (by omega) hScans
      exact leads_attemptHere hFollows hUnits hLater hPass

/- One step before a token. -/
theorem leads_begin
    (hFollows : Follows lx r)
    (hUnits : ∀ u ∈ us.toList, u.unit ≤ maxUnit)
    {sc : Scanner}
    {q offset : Nat}
    {specials : List Lexeme}
    (hRests : Rests lx us sc q offset specials) :
    Leads lx r us q offset offset specials sc.begin := by
  rcases begin_spec hRests with ⟨sc', hBegin, hStands, -⟩ |
    ⟨hEnd, sc', hBegin⟩
  · rw [hBegin]
    exact leads_step hFollows hUnits hStands
  · rw [hBegin]
    exact .endOfFile rfl (.endOfFile hEnd)

------------------------------------------------------------
-- Whole tokens
------------------------------------------------------------

/- What a scanner gives for the outcome of a search. -/
def Reports
    (lx : Lexer)
    (us : Array SourceUnit)
    (out : Outcome)
    (result : Except Failure Token)
    (sc : Scanner) : Prop :=
  match out with
  | .failure =>
      ∃ name place found,
        result = .error (.lexical name place found)
  | .endOfFile t => result = .ok t ∧ t.lexeme.kind = 0
  | .token t q offset =>
      result = .ok t ∧ t.lexeme.kind ≠ 0 ∧
        Rests lx us sc q offset []

/-
  Every step that does not end the search takes a unit, so as
  many steps as there are units left are enough.
-/
theorem steps_spec
    (hFollows : Follows lx r)
    (hUnits : ∀ u ∈ us.toList, u.unit ≤ maxUnit)
    {q start offset fuel : Nat}
    {specials : List Lexeme}
    {outcome : Step × Scanner}
    (hLeads : Leads lx r us q start offset specials outcome)
    (hFuel : us.size ≤ offset + fuel) :
    ∃ result sc out, steps fuel outcome = some (result, sc) ∧
      Scans r us q start offset specials out ∧
      Reports lx us out result sc := by
  induction fuel generalizing q start offset specials outcome
    with
  | zero =>
      cases hLeads with
      | failure hScans =>
          exact ⟨_, _, _, rfl, hScans, _, _, _, rfl⟩
      | endOfFile hKind hScans =>
          exact ⟨_, _, _, rfl, hScans, rfl, hKind⟩
      | token hKind hScans hRests =>
          exact ⟨_, _, _, rfl, hScans, rfl, hKind, hRests⟩
      | restart hLater hRests _ =>
          have hInside := hRests.inside
          omega
      | proceed hLater hStands _ =>
          have hInside := hStands.inside
          omega
  | succ fuel ih =>
      cases hLeads with
      | failure hScans =>
          exact ⟨_, _, _, rfl, hScans, _, _, _, rfl⟩
      | endOfFile hKind hScans =>
          exact ⟨_, _, _, rfl, hScans, rfl, hKind⟩
      | token hKind hScans hRests =>
          exact ⟨_, _, _, rfl, hScans, rfl, hKind, hRests⟩
      | restart hLater hRests hScans =>
          rcases ih (leads_begin hFollows hUnits hRests)
            (by omega) with
            ⟨result, sc, out, hSteps, hFound, hReports⟩
          exact ⟨result, sc, out, hSteps, hScans out hFound,
            hReports⟩
      | proceed hLater hStands hScans =>
          rcases ih (leads_step hFollows hUnits hStands)
            (by omega) with
            ⟨result, sc, out, hSteps, hFound, hReports⟩
          exact ⟨result, sc, out, hSteps, hScans out hFound,
            hReports⟩

theorem size_lt_stepBound
    {sc : Scanner} :
    sc.input.units.size < sc.stepBound := by
  unfold stepBound
  calc sc.input.units.size
      < sc.input.units.size + 1 := Nat.lt_succ_self _
    _ ≤ (sc.input.units.size + 1) *
          (sc.lexer.states.size + 1) :=
        Nat.le_mul_of_pos_right _ (Nat.succ_pos _)
    _ ≤ (sc.input.units.size + 1) *
          (sc.lexer.states.size + 1) *
          (sc.lexer.states.size + 2) :=
        Nat.le_mul_of_pos_right _ (Nat.succ_pos _)

/- The next token is that of the rules. -/
theorem nextToken?_spec
    (hFollows : Follows lx r)
    (hUnits : ∀ u ∈ us.toList, u.unit ≤ maxUnit)
    {sc : Scanner}
    {q offset : Nat}
    (hRests : Rests lx us sc q offset []) :
    ∃ result sc' out, sc.nextToken? = some (result, sc') ∧
      Scans r us q offset offset [] out ∧
      Reports lx us out result sc' := by
  have hBound := @size_lt_stepBound sc
  rw [hRests.units] at hBound
  apply steps_spec hFollows hUnits
    (leads_begin hFollows hUnits hRests)
  omega

/- The tokens of the rules, and what a scanner gives for them. -/
def ReportsAll
    (out : Option (List Token))
    (result : Except Failure (List Token)) : Prop :=
  match out with
  | some ts => result = .ok ts
  | none =>
      ∃ name place found,
        result = .error (.lexical name place found)

theorem tokensWithin?_spec
    (hFollows : Follows lx r)
    (hUnits : ∀ u ∈ us.toList, u.unit ≤ maxUnit)
    {sc : Scanner}
    {q offset fuel : Nat}
    (hRests : Rests lx us sc q offset [])
    (hFuel : us.size < offset + fuel) :
    ∃ result sc' out,
      tokensWithin? fuel sc = some (result, sc') ∧
        Tokenizes r us q offset out ∧
        ReportsAll out result := by
  induction fuel generalizing sc q offset with
  | zero =>
      have hInside := hRests.inside
      omega
  | succ fuel ih =>
      rcases nextToken?_spec hFollows hUnits hRests with
        ⟨result, sc', out, hNext, hScans, hReports⟩
      unfold tokensWithin?
      rw [hNext]
      cases out with
      | failure =>
          rcases hReports with ⟨name, place, found, rfl⟩
          exact ⟨_, _, _, rfl, .failure hScans,
            name, place, found, rfl⟩
      | endOfFile t =>
          rcases hReports with ⟨rfl, hKind⟩
          dsimp only
          rw [hKind]
          exact ⟨_, _, _, rfl, .endOfFile hScans, rfl⟩
      | token t q' offset' =>
          rcases hReports with ⟨rfl, hKind, hRests'⟩
          have hLater := hScans.advances
          rcases ih hRests' (by omega) with
            ⟨result, sc'', out, hWithin, hTokens, hAll⟩
          dsimp only
          rw [if_neg (by simpa using hKind), hWithin]
          have hWhole := Tokenizes.token hScans hTokens
          cases out with
          | none =>
              rcases hAll with ⟨name, place, found, rfl⟩
              exact ⟨_, _, _, rfl, hWhole,
                name, place, found, rfl⟩
          | some ts =>
              cases hAll
              exact ⟨_, _, _, rfl, hWhole, rfl⟩

/- All tokens are those of the rules. -/
theorem tokens?_spec
    (hFollows : Follows lx r)
    (hUnits : ∀ u ∈ us.toList, u.unit ≤ maxUnit)
    {sc : Scanner}
    {q offset : Nat}
    (hRests : Rests lx us sc q offset []) :
    ∃ result sc' out, sc.tokens? = some (result, sc') ∧
      Tokenizes r us q offset out ∧
      ReportsAll out result := by
  have hBound := @size_lt_stepBound sc
  rw [hRests.units] at hBound
  apply tokensWithin?_spec hFollows hUnits hRests
  omega

/- A scanner at the start of a text. -/
theorem rests_ofText
    {text : String}
    {o : Options}
    {sc : Scanner}
    (hText : ofText lx text o = .ok sc) :
    Rests lx sc.input.units sc 0 0 [] ∧
      ∀ u ∈ sc.input.units.toList, u.unit ≤ maxUnit := by
  unfold ofText Input.ofText at hText
  cases hDecode : decode text o.tabSize o.javaUnicodeEscape with
  | error e =>
      rw [hDecode] at hText
      cases hText
  | ok us =>
      rw [hDecode] at hText
      cases hText
      exact ⟨⟨rfl, rfl, rfl, rfl, rfl, Nat.zero_le _⟩,
        decode_le hDecode⟩

end Following

end Scanner

end Descent
