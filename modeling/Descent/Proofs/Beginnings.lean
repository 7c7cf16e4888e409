import Descent.Analysis.Prefixes
import Descent.Proofs.Emission
import Descent.Proofs.LeftRecursion

/-
  The beginnings of token sequences up to a length.

  Matches are handed from expansion to expansion and grow by
  the tokens that a leftmost derivation emits.  One that is
  long enough, or that comes to the call of a production that
  is written by hand, is put aside.  What a walk does is said
  for the lists of expansions that it may go through, and walks
  are put together as these lists are: one after the other,
  beside each other, and again and again.

  No walk comes to its bounds.  Before the next token it enters
  no expansion twice, and what is repeated consumes a token
  each time, so that matches become too long in the end.

  Main declarations:
    * `Prefixes.Advances`, `Prefixes.Advances.andThen` and
      `Prefixes.Advances.orElse`
    * `Prefixes.Takes`
    * `Prefixes.takes_across`, `Prefixes.takes_through` and
      `Prefixes.takes_again`
    * `Prefixes.takes_firstSetTo`
-/

------------------------------------------------------------
-- Matches that grow
------------------------------------------------------------

namespace Descent

open scoped Computability

namespace Prefixes

/- A list has a match of these tokens. -/
def Among
    (tokens : List Kind)
    (ms : List Match) : Prop :=
  ∃ m ∈ ms, m.tokens = tokens

/- A match of these tokens is among the complete ones. -/
def Progress.Holds
    (w : Progress)
    (tokens : List Kind) : Prop :=
  ∃ m ∈ w.complete, m.tokens = tokens

theorem not_holds_fresh
    (tokens : List Kind) :
    ¬ ({} : Progress).Holds tokens := by
  rintro ⟨m, hm, -⟩
  exact absurd hm (Array.not_mem_empty m)

/- A match has grown by what one of the ways generates. -/
def Continues
    (g : Grammar)
    (ways : ExpansionLists)
    (ms : List Match)
    (tokens : List Kind) : Prop :=
  ∃ m ∈ ms, ∃ more, tokens = m.tokens ++ more ∧
    ∃ es ∈ ways, g.Generates es more

/- A match has grown until a derivation of a way stopped. -/
def Halts
    (g : Grammar)
    (limit : Nat)
    (ways : ExpansionLists)
    (ms : List Match)
    (tokens : List Kind) : Prop :=
  ∃ m ∈ ms, ∃ more, tokens = m.tokens ++ more ∧
    ∃ es ∈ ways, g.Stops (limit - m.tokens.length) es more

/- Matches that are still to grow, of some length at least. -/
structure Fits
    (limit least : Nat)
    (ms : List Match)
    (w : Progress) : Prop where
  long : ∀ m ∈ ms, least ≤ m.tokens.length
  short : ∀ m ∈ ms, m.tokens.length < limit
  known : ∀ m ∈ ms, m.id ≤ w.nextId

theorem Fits.mono
    {limit least least' : Nat}
    {ms : List Match}
    {w w' : Progress}
    (hFits : Fits limit least ms w)
    (hLeast : least' ≤ least)
    (hNext : w.nextId ≤ w'.nextId) :
    Fits limit least' ms w' where
  long m hm := hLeast.trans (hFits.long m hm)
  short := hFits.short
  known m hm := (hFits.known m hm).trans hNext

/-
  What a walk through some ways makes of matches.  Those that
  it returns are shorter than the limit, the others are put
  aside.  A match keeps its number only if a way vanishes.
-/
structure Advances
    (g : Grammar)
    (limit : Nat)
    (ways : ExpansionLists)
    (partials : List Match)
    (w : Progress)
    (r : List Match × Progress) : Prop where
  left : ∀ tokens, Among tokens r.1 ↔
    tokens.length < limit ∧ Continues g ways partials tokens
  complete : ∀ tokens, r.2.Holds tokens ↔
    w.Holds tokens ∨ Halts g limit ways partials tokens
  fresh : ∀ m ∈ r.1, w.nextId < m.id ∨
    m ∈ partials ∧ ∃ es ∈ ways, g.Vanishes es
  known : ∀ m ∈ r.1, m.id ≤ r.2.nextId
  next : w.nextId ≤ r.2.nextId

section Matches

variable {g : Grammar} {limit least : Nat}
variable {ways ways' : ExpansionLists}
variable {ms ms' : List Match} {w w' : Progress}
variable {r : List Match × Progress} {tokens : List Kind}

theorem among_append :
    Among tokens (ms ++ ms') ↔
      Among tokens ms ∨ Among tokens ms' := by
  unfold Among
  simp only [List.mem_append, or_and_right, exists_or]

theorem continues_add :
    Continues g (ways + ways') ms tokens ↔
      Continues g ways ms tokens ∨
        Continues g ways' ms tokens := by
  unfold Continues
  simp only [Language.mem_add, or_and_right, exists_or,
    and_or_left]

theorem halts_add :
    Halts g limit (ways + ways') ms tokens ↔
      Halts g limit ways ms tokens ∨
        Halts g limit ways' ms tokens := by
  unfold Halts
  simp only [Language.mem_add, or_and_right, exists_or,
    and_or_left]

theorem Advances.length_lt
    (hAdvances : Advances g limit ways ms w r)
    {m : Match}
    (hm : m ∈ r.1) :
    m.tokens.length < limit :=
  ((hAdvances.left m.tokens).mp ⟨m, hm, rfl⟩).1

/- Matches still fit, and if no way vanishes, all have grown. -/
theorem Advances.fits
    (hAdvances : Advances g limit ways ms w r)
    (hFits : Fits limit least ms w) :
    Fits limit least r.1 r.2 where
  long m hm := by
    rcases ((hAdvances.left m.tokens).mp ⟨m, hm, rfl⟩).2 with
      ⟨m₀, hm₀, more, hTokens, -⟩
    rw [hTokens, List.length_append]
    exact (hFits.long m₀ hm₀).trans (Nat.le_add_right _ _)
  short _ hm := hAdvances.length_lt hm
  known := hAdvances.known

theorem Advances.fits_succ
    (hAdvances : Advances g limit ways ms w r)
    (hFits : Fits limit least ms w)
    (hKept : ∀ es ∈ ways, ¬ g.Vanishes es) :
    Fits limit (least + 1) r.1 r.2 where
  long m hm := by
    rcases ((hAdvances.left m.tokens).mp ⟨m, hm, rfl⟩).2 with
      ⟨m₀, hm₀, more, hTokens, es, hes, hGenerates⟩
    have hMore : more ≠ [] := by
      rintro rfl
      exact hKept es hes (Grammar.vanishes_iff_generates.mpr hGenerates)
    rw [hTokens, List.length_append]
    exact Nat.add_le_add (hFits.long m₀ hm₀)
      (List.length_pos_iff.mpr hMore)
  short _ hm := hAdvances.length_lt hm
  known := hAdvances.known

/- First some ways are gone, and then others. -/
theorem Advances.continues_mul
    (hFirst : Advances g limit ways ms w r)
    (hShort : tokens.length < limit) :
    Continues g ways' r.1 tokens ↔
      Continues g (ways * ways') ms tokens := by
  constructor
  · rintro ⟨m, hm, vs, rfl, fs, hfs, hSecond⟩
    rcases ((hFirst.left m.tokens).mp ⟨m, hm, rfl⟩).2 with
      ⟨m₀, hm₀, us, hTokens, es, hes, hGenerates⟩
    refine ⟨m₀, hm₀, us ++ vs, ?_, es ++ fs,
      Language.append_mem_mul hes hfs,
      hGenerates.emits_append hSecond⟩
    rw [hTokens, List.append_assoc]
  · rintro ⟨m₀, hm₀, more, rfl, both, hBoth, hGenerates⟩
    rcases Language.mem_mul.mp hBoth with ⟨es, hes, fs, hfs, rfl⟩
    rcases Grammar.generates_append.mp hGenerates with
      ⟨us, vs, rfl, hus, hvs⟩
    rw [← List.append_assoc] at hShort ⊢
    have hPart : (m₀.tokens ++ us).length < limit := by
      rw [List.length_append] at hShort
      exact Nat.lt_of_le_of_lt (Nat.le_add_right _ _) hShort
    rcases (hFirst.left _).mpr
      ⟨hPart, m₀, hm₀, us, rfl, es, hes, hus⟩ with
      ⟨m, hm, hTokens⟩
    exact ⟨m, hm, vs, by rw [hTokens], fs, hfs, hvs⟩

/- A derivation stops on the first way, or on the second. -/
theorem Advances.halts_mul
    (hFirst : Advances g limit ways ms w r)
    (hSome : ∃ es, es ∈ ways') :
    Halts g limit (ways * ways') ms tokens ↔
      Halts g limit ways ms tokens ∨
        Halts g limit ways' r.1 tokens := by
  constructor
  · rintro ⟨m₀, hm₀, more, rfl, both, hBoth, hStops⟩
    rcases Language.mem_mul.mp hBoth with ⟨es, hes, fs, hfs, rfl⟩
    rcases Grammar.stops_append.mp hStops with
      hHere | ⟨us, vs, rfl, hLess, hus, hvs⟩
    · exact .inl ⟨m₀, hm₀, more, rfl, es, hes, hHere⟩
    · have hPart : (m₀.tokens ++ us).length < limit := by
        rw [List.length_append]
        omega
      rcases (hFirst.left _).mpr
        ⟨hPart, m₀, hm₀, us, rfl, es, hes, hus⟩ with
        ⟨m, hm, hTokens⟩
      refine .inr ⟨m, hm, vs, ?_, fs, hfs, ?_⟩
      · rw [hTokens, List.append_assoc]
      · rw [hTokens, List.length_append, ← Nat.sub_sub]
        exact hvs
  · rintro (⟨m₀, hm₀, more, rfl, es, hes, hStops⟩ |
      ⟨m, hm, vs, rfl, fs, hfs, hStops⟩)
    · rcases hSome with ⟨fs, hfs⟩
      exact ⟨m₀, hm₀, more, rfl, es ++ fs,
        Language.append_mem_mul hes hfs,
        Grammar.stops_append.mpr (.inl hStops)⟩
    · rcases (hFirst.left m.tokens).mp ⟨m, hm, rfl⟩ with
        ⟨hPart, m₀, hm₀, us, hTokens, es, hes, hGenerates⟩
      rw [hTokens] at hPart hStops ⊢
      rw [List.length_append] at hPart hStops
      refine ⟨m₀, hm₀, us ++ vs, List.append_assoc _ _ _,
        es ++ fs, Language.append_mem_mul hes hfs,
        Grammar.stops_append.mpr (.inr ⟨us, vs, rfl, ?_,
          hGenerates, ?_⟩)⟩
      · omega
      · rw [Nat.sub_sub]
        exact hStops

/- What two walks have come to, one after the other. -/
theorem Advances.andThen
    {r' : List Match × Progress}
    (hFirst : Advances g limit ways ms w r)
    (hSecond : Advances g limit ways' r.1 r.2 r')
    (hSome : ∃ es, es ∈ ways') :
    Advances g limit (ways * ways') ms w r' where
  left tokens := by
    rw [hSecond.left]
    exact and_congr_right fun hShort =>
      hFirst.continues_mul hShort
  complete tokens := by
    rw [hSecond.complete, hFirst.complete, or_assoc,
      hFirst.halts_mul hSome]
  fresh m hm := by
    rcases hSecond.fresh m hm with hNew | ⟨hOld, fs, hfs, hGone⟩
    · exact .inl (hFirst.next.trans_lt hNew)
    · refine (hFirst.fresh m hOld).imp_right ?_
      rintro ⟨hm₀, es, hes, hGone'⟩
      exact ⟨hm₀, es ++ fs, Language.append_mem_mul hes hfs,
        Grammar.vanishes_append.mpr ⟨hGone', hGone⟩⟩
  known := hSecond.known
  next := hFirst.next.trans hSecond.next

/- What two walks have come to that started with the same. -/
theorem Advances.orElse
    {r' : List Match × Progress}
    (hFirst : Advances g limit ways ms w r)
    (hSecond : Advances g limit ways' ms r.2 r') :
    Advances g limit (ways + ways') ms w (r.1 ++ r'.1, r'.2) where
  left tokens := by
    rw [among_append, hFirst.left, hSecond.left, ← and_or_left,
      continues_add]
  complete tokens := by
    rw [hSecond.complete, hFirst.complete, or_assoc, halts_add]
  fresh m hm := by
    rcases List.mem_append.mp hm with hHere | hThere
    · refine (hFirst.fresh m hHere).imp_right ?_
      rintro ⟨hm₀, es, hes, hGone⟩
      exact ⟨hm₀, es, .inl hes, hGone⟩
    · refine (hSecond.fresh m hThere).imp hFirst.next.trans_lt ?_
      rintro ⟨hm₀, es, hes, hGone⟩
      exact ⟨hm₀, es, .inr hes, hGone⟩
  known m hm := by
    rcases List.mem_append.mp hm with hHere | hThere
    · exact (hFirst.known m hHere).trans hSecond.next
    · exact hSecond.known m hThere
  next := hFirst.next.trans hSecond.next

/- No matches, whatever the ways. -/
theorem advances_none :
    Advances g limit ways [] w ([], w) where
  left _ := iff_of_false (fun ⟨_, hm, _⟩ => nomatch hm)
    fun ⟨_, _, hm, _⟩ => nomatch hm
  complete _ := (or_iff_left fun ⟨_, hm, _⟩ => nomatch hm).symm
  fresh _ hm := nomatch hm
  known _ hm := nomatch hm
  next := le_rfl

/- Matches are handed on. -/
theorem advances_return
    (hFits : Fits limit least ms w) :
    Advances g limit 1 ms w (ms, w) where
  left tokens := by
    constructor
    · rintro ⟨m, hm, rfl⟩
      exact ⟨hFits.short m hm, m, hm, [], by simp, [], rfl,
        .stop []⟩
    · rintro ⟨-, m, hm, more, rfl, _, rfl, hGenerates⟩
      rw [Grammar.generates_nil.mp hGenerates, List.append_nil]
      exact ⟨m, hm, rfl⟩
  complete tokens := by
    refine (or_iff_left ?_).symm
    rintro ⟨m, hm, more, -, _, rfl, hStops⟩
    exact Grammar.not_stops_nil
      (Nat.sub_pos_of_lt (hFits.short m hm)) hStops
  fresh m hm := .inr ⟨hm, [], rfl, g.vanishes_nil⟩
  known := hFits.known
  next := le_rfl

/- There is no way. -/
theorem advances_never :
    Advances g limit 0 ms w ([], w) where
  left _ := iff_of_false (fun ⟨_, hm, _⟩ => nomatch hm)
    fun ⟨_, _, _, _, _, _, hWay, _⟩ => hWay
  complete _ := (or_iff_left
    fun ⟨_, _, _, _, _, hWay, _⟩ => hWay).symm
  fresh _ hm := nomatch hm
  known _ hm := nomatch hm
  next := le_rfl

/- What becomes of matches is known match by match. -/
theorem Advances.beside
    {r' : List Match × Progress}
    (hFirst : Advances g limit ways ms w r)
    (hSecond : Advances g limit ways ms' r.2 r') :
    Advances g limit ways (ms ++ ms') w
      (r.1 ++ r'.1, r'.2) where
  left tokens := by
    rw [among_append, hFirst.left, hSecond.left, ← and_or_left]
    unfold Continues
    simp only [List.mem_append, or_and_right, exists_or]
  complete tokens := by
    rw [hSecond.complete, hFirst.complete, or_assoc]
    unfold Halts
    simp only [List.mem_append, or_and_right, exists_or]
  fresh m hm := by
    rcases List.mem_append.mp hm with hHere | hThere
    · exact (hFirst.fresh m hHere).imp_right
        (And.imp_left (List.mem_append_left ms'))
    · exact (hSecond.fresh m hThere).imp hFirst.next.trans_lt
        (And.imp_left (List.mem_append_right ms))
  known m hm := by
    rcases List.mem_append.mp hm with hHere | hThere
    · exact (hFirst.known m hHere).trans hSecond.next
    · exact hSecond.known m hThere
  next := hFirst.next.trans hSecond.next

/- Other ways that spell the same and stop at the same. -/
theorem Advances.congr
    (hAdvances : Advances g limit ways ms w r)
    (hShort : ∀ m ∈ ms, m.tokens.length < limit)
    (hGenerates : ∀ more, (∃ es ∈ ways, g.Generates es more) ↔
      ∃ es ∈ ways', g.Generates es more)
    (hStops : ∀ limit' more, 0 < limit' →
      ((∃ es ∈ ways, g.Stops limit' es more) ↔
        ∃ es ∈ ways', g.Stops limit' es more)) :
    Advances g limit ways' ms w r where
  left tokens := by
    rw [hAdvances.left]
    unfold Continues
    simp only [hGenerates]
  complete tokens := by
    rw [hAdvances.complete]
    refine or_congr_right (exists_congr fun m =>
      and_congr_right fun hm => exists_congr fun more =>
        and_congr_right fun _ => ?_)
    exact hStops _ more (Nat.sub_pos_of_lt (hShort m hm))
  fresh m hm := by
    have hGone := hGenerates []
    simp only [← Grammar.vanishes_iff_generates] at hGone
    rw [← hGone]
    exact hAdvances.fresh m hm
  known := hAdvances.known
  next := hAdvances.next

end Matches

------------------------------------------------------------
-- Walks
------------------------------------------------------------

theorem run_bind
    {α β : Type}
    (x : Walk α)
    (f : α → Walk β)
    (w : Progress) :
    (x >>= f).run w = (f (x.run w).1).run (x.run w).2 :=
  rfl

/-
  Two walks do the same with all matches of some length, and it
  is what the ways make of them.
-/
def Takes
    (g : Grammar)
    (limit least : Nat)
    (ways : ExpansionLists)
    (walk walk' : List Match → Walk (List Match)) : Prop :=
  ∀ ms w, Fits limit least ms w →
    (walk' ms).run w = (walk ms).run w ∧
      Advances g limit ways ms w ((walk ms).run w)

section Walks

variable {g : Grammar} {limit least : Nat}
variable {ways ways' : ExpansionLists}
variable {walk walk' : List Match → Walk (List Match)}
variable {step step' : List Match → ExpId → Walk (List Match)}

theorem Takes.mono
    (hTakes : Takes g limit least ways walk walk')
    {least' : Nat}
    (hLeast : least ≤ least') :
    Takes g limit least' ways walk walk' :=
  fun ms w hFits => hTakes ms w (hFits.mono hLeast le_rfl)

/- Matches are handed on. -/
theorem takes_return :
    Takes g limit least 1 (fun ms => return ms)
      (fun ms => return ms) :=
  fun _ _ hFits => ⟨rfl, advances_return hFits⟩

/- Matches are handed on beside those that grow. -/
theorem takes_beside
    (hTakes : Takes g limit least ways walk walk') :
    Takes g limit least (1 + ways)
      (fun ms => do
        let more ← walk ms
        return ms ++ more)
      (fun ms => do
        let more ← walk' ms
        return ms ++ more) := by
  intro ms w hFits
  rcases hTakes ms w hFits with ⟨hSame, hAdvances⟩
  rw [run_bind, run_bind, hSame]
  exact ⟨rfl, (advances_return hFits).orElse hAdvances⟩

section Tokens

variable {id : ExpId} {r : RegexId}
variable {result member : Option String}
variable {m : Match} {tokens : List Kind}

theorem continues_terminal
    (hToken : g.form id = .terminal r result member) :
    Continues g {[id]} [m] tokens ↔
      tokens = m.tokens ++ [(g.regex r).kind] := by
  constructor
  · rintro ⟨_, hm, more, rfl, _, rfl, hGenerates⟩
    cases List.mem_singleton.mp hm
    rw [(Grammar.generates_terminal hToken).mp hGenerates]
  · rintro rfl
    exact ⟨m, List.mem_singleton_self m, _, rfl, [id], rfl,
      (Grammar.generates_terminal hToken).mpr rfl⟩

theorem halts_terminal
    (hToken : g.form id = .terminal r result member)
    (hShort : m.tokens.length < limit) :
    Halts g limit {[id]} [m] tokens ↔
      tokens = m.tokens ++ [(g.regex r).kind] ∧
        limit ≤ tokens.length := by
  have hStops : ∀ more,
      g.Stops (limit - m.tokens.length) [id] more ↔
        more = [(g.regex r).kind] ∧
          limit - m.tokens.length = 1 :=
    fun _ => Grammar.stops_terminal hToken
      (Nat.sub_pos_of_lt hShort)
  constructor
  · rintro ⟨_, hm, more, rfl, _, rfl, hHere⟩
    cases List.mem_singleton.mp hm
    rcases (hStops more).mp hHere with ⟨rfl, hOne⟩
    rw [List.length_append, List.length_singleton]
    exact ⟨rfl, by omega⟩
  · rintro ⟨rfl, hFull⟩
    rw [List.length_append, List.length_singleton] at hFull
    exact ⟨m, List.mem_singleton_self m, _, rfl, [id], rfl,
      (hStops _).mpr ⟨rfl, by omega⟩⟩

theorem run_grow_one
    (limit : Nat)
    (kind : Kind)
    (m : Match)
    (w : Progress) :
    (grow limit kind [m]).run w =
      let longer : Match := ⟨w.nextId + 1, m.tokens ++ [kind]⟩
      if limit ≤ longer.tokens.length then
        ([], { w with
          nextId := w.nextId + 1
          complete := w.complete ++ [longer].toArray })
      else
        ([longer], { w with nextId := w.nextId + 1 }) := by
  let longer : Match := ⟨w.nextId + 1, m.tokens ++ [kind]⟩
  change StateT.run (if limit ≤ longer.tokens.length then _
    else _) _ = _
  dsimp only
  split
  · rfl
  · rfl

/- A token is added to one match. -/
theorem advances_grow_one
    (hToken : g.form id = .terminal r result member)
    (w : Progress)
    (hShort : m.tokens.length < limit) :
    Advances g limit {[id]} [m] w
      ((grow limit (g.regex r).kind [m]).run w) := by
  let longer : Match :=
    ⟨w.nextId + 1, m.tokens ++ [(g.regex r).kind]⟩
  have hRun : (grow limit (g.regex r).kind [m]).run w =
      if limit ≤ longer.tokens.length then
        ([], { w with
          nextId := w.nextId + 1
          complete := w.complete ++ [longer].toArray })
      else
        ([longer], { w with nextId := w.nextId + 1 }) :=
    run_grow_one limit _ m w
  rw [hRun]
  split
  · next hFull =>
      constructor
      · intro tokens
        rw [continues_terminal hToken]
        refine iff_of_false (fun ⟨_, hm, _⟩ => nomatch hm) ?_
        rintro ⟨hLess, rfl⟩
        exact hLess.not_ge hFull
      · intro tokens
        have hHalts : Halts g limit {[id]} [m] tokens ↔
            longer.tokens = tokens := by
          rw [halts_terminal hToken hShort]
          constructor
          · exact fun h => h.1.symm
          · rintro rfl
            exact ⟨rfl, hFull⟩
        rw [hHalts]
        unfold Progress.Holds
        simp [or_and_right, exists_or]
      · exact List.forall_mem_nil _
      · exact List.forall_mem_nil _
      · exact Nat.le_succ _
  · next hLess =>
      constructor
      · intro tokens
        rw [continues_terminal hToken]
        constructor
        · rintro ⟨_, hm, rfl⟩
          cases List.mem_singleton.mp hm
          exact ⟨Nat.not_le.mp hLess, rfl⟩
        · rintro ⟨-, rfl⟩
          exact ⟨longer, List.mem_singleton_self _, rfl⟩
      · intro tokens
        rw [halts_terminal hToken hShort]
        refine (or_iff_left ?_).symm
        rintro ⟨rfl, hFull⟩
        exact hLess hFull
      · intro m' hm'
        cases List.mem_singleton.mp hm'
        exact .inl (Nat.lt_succ_self _)
      · intro m' hm'
        cases List.mem_singleton.mp hm'
        exact le_rfl
      · exact Nat.le_succ _

theorem run_grow_cons
    (kind : Kind)
    (m : Match)
    (ms : List Match)
    (w : Progress) :
    (grow limit kind (m :: ms)).run w =
      let one := (grow limit kind [m]).run w
      let rest := (grow limit kind ms).run one.2
      (one.1 ++ rest.1, rest.2) := by
  rw [grow, grow, run_bind, run_bind]
  split
  · rfl
  · rfl

/- A token is added to every match. -/
theorem takes_grow
    (hToken : g.form id = .terminal r result member) :
    Takes g limit least {[id]} (grow limit (g.regex r).kind)
      (grow limit (g.regex r).kind) := by
  intro ms w hFits
  refine ⟨rfl, ?_⟩
  have hShort := hFits.short
  clear hFits
  induction ms generalizing w with
  | nil => exact advances_none
  | cons m ms ih =>
      rw [List.forall_mem_cons] at hShort
      rw [run_grow_cons]
      exact (advances_grow_one hToken w hShort.1).beside
        (ih _ hShort.2)

end Tokens

/- Matches are handed to each alternative. -/
theorem takes_across
    (alternatives : List ExpId)
    (hStep : ∀ alt ∈ alternatives,
      Takes g limit least {[alt]} (step · alt) (step' · alt)) :
    Takes g limit least (Grammar.oneOf alternatives)
      (across step · alternatives)
      (across step' · alternatives) := by
  intro ms w hFits
  induction alternatives generalizing w with
  | nil =>
      rw [Grammar.oneOf_nil]
      exact ⟨rfl, advances_never⟩
  | cons alt alts ih =>
      rw [List.forall_mem_cons] at hStep
      rcases hStep.1 ms w hFits with ⟨hSame, hHere⟩
      rcases ih hStep.2 ((step ms alt).run w).2
        (hFits.mono le_rfl hHere.next) with ⟨hRest, hThere⟩
      rw [Grammar.oneOf_cons]
      refine ⟨?_, hHere.orElse hThere⟩
      dsimp only at hSame hRest ⊢
      rw [across, across, run_bind, run_bind, run_bind, run_bind,
        hSame, hRest]

/-
  Matches are handed to one unit after another, as long as some
  are left.  A unit after one that does not vanish meets longer
  ones.
-/
theorem takes_through
    (units : List ExpId)
    (hFirst : ∀ before u after, units = before ++ u :: after →
      g.Vanishes before →
      Takes g limit least {[u]} (step · u) (step' · u))
    (hLater : least + 1 < limit → ∀ u ∈ units,
      Takes g limit (least + 1) {[u]} (step · u) (step' · u)) :
    Takes g limit least {units} (through step · units)
      (through step' · units) := by
  intro ms w hFits
  induction units generalizing least ms w with
  | nil => exact ⟨rfl, advances_return hFits⟩
  | cons u us ih =>
      have hHead := hFirst [] u us rfl g.vanishes_nil ms w hFits
      rcases hHead with ⟨hSame, hHere⟩
      generalize hRun : (step ms u).run w = r at hSame hHere
      rcases r with ⟨current, w₁⟩
      have hThrough : ∀ step'' : List Match → ExpId →
          Walk (List Match),
          (step'' ms u).run w = (current, w₁) →
          (through step'' ms (u :: us)).run w =
            if current.isEmpty then ([], w₁)
            else (through step'' current us).run w₁ := by
        intro step'' hStep''
        rw [through, run_bind, hStep'']
        split
        · rfl
        · rfl
      rw [hThrough step hRun, hThrough step' hSame]
      have hAll : ({u :: us} : ExpansionLists) =
          {[u]} * {us} :=
        (Grammar.singleton_mul_singleton [u] us).symm
      rw [hAll]
      have hSome : ∃ es, es ∈ ({us} : ExpansionLists) :=
        ⟨us, rfl⟩
      by_cases hNone : current.isEmpty = true
      · rw [if_pos hNone, if_pos hNone]
        rw [List.isEmpty_iff] at hNone
        subst hNone
        exact ⟨rfl, hHere.andThen advances_none hSome⟩
      · rw [if_neg hNone, if_neg hNone]
        rw [List.isEmpty_iff] at hNone
        rcases List.exists_mem_of_ne_nil current hNone with
          ⟨m, hm⟩
        have hShort := hHere.length_lt hm
        have hRest : (through step' current us).run w₁ =
              (through step current us).run w₁ ∧
            Advances g limit {us} current w₁
              ((through step current us).run w₁) := by
          by_cases hGone : g.Vanishes [u]
          · refine ih ?_ ?_ current w₁ (hHere.fits hFits)
            · rintro before u' after rfl hBefore
              exact hFirst (u :: before) u' after rfl
                ((g.vanishes_cons u).mpr ⟨hGone, hBefore⟩)
            · exact fun hRoom u' hu' =>
                hLater hRoom u' (List.mem_cons_of_mem u hu')
          · have hLonger : Fits limit (least + 1) current w₁ :=
              hHere.fits_succ hFits fun es hes => hes ▸ hGone
            have hRoom := (hLonger.long m hm).trans_lt hShort
            refine ih ?_ ?_ current w₁ hLonger
            · rintro before u' after rfl -
              exact hLater hRoom u' (by simp)
            · exact fun _ u' hu' =>
                (hLater hRoom u' (List.mem_cons_of_mem u hu')).mono
                  (Nat.le_succ _)
        exact ⟨hRest.1, hHere.andThen hRest.2 hSome⟩

/- Matches that have grown are not the same as before. -/
theorem sameMatches_eq_false
    {ms next : List Match}
    {w w₁ : Progress}
    (hHere : Advances g limit ways ms w (next, w₁))
    (hFits : Fits limit least ms w)
    (hKept : ∀ es ∈ ways, ¬ g.Vanishes es)
    {m : Match}
    (hm : m ∈ next) :
    sameMatches next ms = false := by
  apply beq_false_of_ne
  intro hIds
  have hId : m.id ∈ next.map (·.id) := List.mem_map_of_mem hm
  rw [hIds] at hId
  rcases List.mem_map.mp hId with ⟨m₀, hm₀, hSame⟩
  rcases hHere.fresh m hm with hNew | ⟨-, es, hes, hGone⟩
  · exact absurd (hFits.known m₀ hm₀) (by omega)
  · exact hKept es hes hGone

/-
  A body that consumes tokens is tried again until no match is
  left that is short enough, and never too often.
-/
theorem takes_again
    {body : ExpId}
    (hKept : ¬ g.Vanishes [body])
    (beyond beyond' : Walk (List Match))
    {times : Nat}
    (hTimes : limit - least < times)
    (hStep : Takes g limit least {[body]} walk walk') :
    Takes g limit least ({[body]} * {[body]}∗)
      (again beyond walk times) (again beyond' walk' times) := by
  induction times generalizing least with
  | zero => exact absurd hTimes (Nat.not_lt_zero _)
  | succ times ih =>
      intro ms w hFits
      rcases hStep ms w hFits with ⟨hSame, hHere⟩
      generalize hRun : (walk ms).run w = r at hSame hHere
      rcases r with ⟨next, w₁⟩
      have hAgain : ∀ beyond'' : Walk (List Match),
          ∀ walk'' : List Match → Walk (List Match),
          (walk'' ms).run w = (next, w₁) →
          (again beyond'' walk'' (times + 1) ms).run w =
            if next.isEmpty || sameMatches next ms then ([], w₁)
            else
              let more := (again beyond'' walk'' times next).run w₁
              (next ++ more.1, more.2) := by
        intro beyond'' walk'' hWalk''
        rw [again, run_bind, hWalk'']
        split
        · rfl
        · rfl
      rw [hAgain beyond walk hRun, hAgain beyond' walk' hSame]
      have hOnce : ∀ es ∈ ({[body]} : ExpansionLists),
          ¬ g.Vanishes es :=
        fun es hes => hes ▸ hKept
      cases next with
      | nil =>
          exact ⟨rfl, hHere.andThen advances_none
            ⟨[], Language.nil_mem_kstar _⟩⟩
      | cons m rest =>
          rw [sameMatches_eq_false hHere hFits hOnce
            List.mem_cons_self]
          have hLonger := hHere.fits_succ hFits hOnce
          have hRoom := (hLonger.long m List.mem_cons_self).trans_lt
            (hHere.length_lt List.mem_cons_self)
          have hFewer : limit - (least + 1) < times := by
            omega
          rcases ih hFewer (hStep.mono (Nat.le_succ _)) _ _
            hLonger with ⟨hSame', hMore⟩
          have hAll := hHere.andThen
            ((advances_return (hHere.fits hFits)).orElse hMore)
            ⟨[], .inl rfl⟩
          rw [Language.one_add_self_mul_kstar_eq_kstar] at hAll
          refine ⟨?_, hAll⟩
          dsimp only at hSame' ⊢
          rw [hSame']

/- Matches come to the call of what is written by hand. -/
theorem takes_code
    {id : ExpId}
    {name args : String}
    {result : Option String}
    (hCall : g.form id = .nonterminal name result args)
    (hNone : ∀ body, ¬ g.Defines name body)
    (hCode : g.CallsCode id) :
    Takes g limit least {[id]}
      (fun ms => do
        addComplete ms
        return [])
      (fun ms => do
        addComplete ms
        return []) := by
  intro ms w hFits
  refine ⟨rfl, ?_⟩
  change Advances g limit {[id]} ms w
    ([], { w with complete := w.complete ++ ms.toArray })
  constructor
  · intro tokens
    refine iff_of_false (fun ⟨_, hm, _⟩ => nomatch hm) ?_
    rintro ⟨-, _, _, _, -, _, rfl, hGenerates⟩
    exact Grammar.not_generates_call hCall hNone hGenerates
  · intro tokens
    have hHalts : Halts g limit {[id]} ms tokens ↔
        Among tokens ms := by
      refine exists_congr fun m => and_congr_right fun hm => ?_
      have hStops : ∀ more,
          g.Stops (limit - m.tokens.length) [id] more ↔
            more = [] :=
        fun _ => Grammar.stops_call hCall hNone hCode
          (Nat.sub_pos_of_lt (hFits.short m hm))
      constructor
      · rintro ⟨more, rfl, _, rfl, hHere⟩
        rw [(hStops more).mp hHere, List.append_nil]
      · rintro rfl
        exact ⟨[], (List.append_nil _).symm, [id], rfl,
          (hStops []).mpr rfl⟩
    rw [hHalts]
    unfold Progress.Holds Among
    simp only [Array.mem_append, List.mem_toArray, or_and_right,
      exists_or]
  · exact List.forall_mem_nil _
  · exact List.forall_mem_nil _
  · exact le_rfl

/- What goes all ways of an expansion goes through it. -/
theorem Takes.of_ways
    {id : ExpId}
    (hTakes : Takes g limit least (g.ways id) walk walk')
    (hKept : ∀ r result member,
      g.form id ≠ .terminal r result member)
    (hRules : ¬ g.CallsCode id) :
    Takes g limit least {[id]} walk walk' := by
  intro ms w hFits
  rcases hTakes ms w hFits with ⟨hSame, hAdvances⟩
  have hOne : ∀ P : List ExpId → Prop,
      (∃ es ∈ ({[id]} : ExpansionLists), P es) ↔ P [id] :=
    fun P => ⟨fun ⟨_, rfl, h⟩ => h, fun h => ⟨_, rfl, h⟩⟩
  refine ⟨hSame, hAdvances.congr hFits.short ?_ ?_⟩
  · intro more
    rw [hOne, Grammar.generates_iff_ways]
    refine (or_iff_right ?_).symm
    rintro ⟨r, result, member, hToken, -⟩
    exact hKept r result member hToken
  · intro limit' more hLimit
    rw [hOne, Grammar.stops_iff_ways hLimit, or_iff_right,
      or_iff_right]
    · exact fun h => hRules h.1
    · rintro ⟨r, result, member, hToken, -⟩
      exact hKept r result member hToken

end Walks

------------------------------------------------------------
-- Expansions
------------------------------------------------------------

/- No two productions have one name. -/
theorem eq_of_name_eq
    {g : Grammar}
    {s : Session}
    (hNames : s.KnowsNames g)
    {p q : Production}
    (hp : p ∈ g.productions)
    (hq : q ∈ g.productions)
    (hSame : p.name = q.name) :
    p = q := by
  rcases Array.mem_iff_getElem?.mp hp with ⟨i, hi⟩
  rcases Array.mem_iff_getElem?.mp hq with ⟨j, hj⟩
  have hLeft := (hNames q.name i).mpr ⟨p, hi, hSame⟩
  have hRight := (hNames q.name j).mpr ⟨q, hj, rfl⟩
  rw [hLeft] at hRight
  cases hRight
  exact Option.some.inj (hi.symm.trans hj)

section Calls

variable {g : Grammar} {s : Session} {id : ExpId}
variable {name args : String} {result : Option String}

/- A call of what is not there has no way. -/
theorem ways_unknown
    (hNames : s.KnowsNames g)
    (hCall : g.form id = .nonterminal name result args)
    (hUnknown : s.production? name = none) :
    g.ways id = 0 ∧ ¬ g.CallsCode id := by
  have hOther : ∀ p ∈ g.productions, p.name ≠ name := by
    intro p hp hName
    rcases Array.mem_iff_getElem?.mp hp with ⟨q, hAt⟩
    rw [(hNames name q).mpr ⟨p, hAt, hName⟩] at hUnknown
    cases hUnknown
  constructor
  · unfold Grammar.ways
    rw [hCall]
    apply Language.ext
    refine fun es => iff_of_false ?_ (Language.notMem_zero es)
    rintro ⟨body, ⟨p, hp, hName, -⟩, -⟩
    exact hOther p hp hName
  · rintro ⟨_, _, _, hSame, p, hp, hName, -⟩
    rw [hCall] at hSame
    cases hSame
    exact hOther p hp hName

/- A call of what has a body has the way into it. -/
theorem ways_rules
    (hNames : s.KnowsNames g)
    (hCall : g.form id = .nonterminal name result args)
    {p : Production}
    (hp : p ∈ g.productions)
    (hName : p.name = name)
    {body : ExpId}
    (hBody : p.expansion? = some body) :
    g.ways id = {[body]} ∧ ¬ g.CallsCode id := by
  have hOnly : ∀ p' ∈ g.productions, p'.name = name → p' = p :=
    fun p' hp' hName' =>
      eq_of_name_eq hNames hp' hp (hName'.trans hName.symm)
  constructor
  · unfold Grammar.ways
    rw [hCall]
    apply Language.ext
    intro es
    constructor
    · rintro ⟨body', ⟨p', hp', hName', hBody'⟩, rfl⟩
      rw [hOnly p' hp' hName', hBody] at hBody'
      cases hBody'
      exact rfl
    · rintro rfl
      exact ⟨body, ⟨p, hp, hName, hBody⟩, rfl⟩
  · rintro ⟨_, _, _, hSame, p', hp', hName', hCode⟩
    rw [hCall] at hSame
    cases hSame
    rw [hOnly p' hp' hName'] at hCode
    unfold Production.isCode at hCode
    unfold Production.expansion? at hBody
    cases hIs : p.body with
    | rules body' declarations =>
        rw [hIs] at hCode
        cases hCode
    | code language text =>
        rw [hIs] at hBody
        cases hBody

/-
  Matches come to a call: they go on in the body that it has,
  are put aside if it has none, and are lost if there is no
  such production.
-/
theorem takes_call
    (hNames : s.KnowsNames g)
    {limit least : Nat}
    (hCall : g.form id = .nonterminal name result args)
    {step step' : List Match → ExpId → Walk (List Match)}
    (hBodies : ∀ body, g.Defines name body →
      Takes g limit least {[body]} (step · body) (step' · body)) :
    let go := fun (step : List Match → ExpId →
        Walk (List Match)) ms =>
      match s.production? name with
      | none => return []
      | some p =>
          match (g.production p).body with
          | .rules body _ => step ms body
          | .code _ _ => do
              addComplete ms
              return []
    Takes g limit least {[id]} (go step) (go step') := by
  have hKept : ∀ r result member,
      g.form id ≠ .terminal r result member := by
    rw [hCall]
    exact nofun
  dsimp only
  cases hId : s.production? name with
  | none =>
      rcases ways_unknown hNames hCall hId with ⟨hWays, hRules⟩
      refine Takes.of_ways ?_ hKept hRules
      rw [hWays]
      exact fun _ _ _ => ⟨rfl, advances_never⟩
  | some q =>
      rcases (hNames name q).mp hId with ⟨p, hAt, hName⟩
      have hp := Array.mem_of_getElem? hAt
      dsimp only
      rw [g.production_eq hAt]
      cases hBody : p.body with
      | rules body declarations =>
          have hExpansion : p.expansion? = some body := by
            unfold Production.expansion?
            rw [hBody]
          rcases ways_rules hNames hCall hp hName hExpansion with
            ⟨hWays, hRules⟩
          refine Takes.of_ways ?_ hKept hRules
          rw [hWays]
          exact hBodies body ⟨p, hp, hName, hExpansion⟩
      | code language text =>
          refine takes_code hCall ?_ ⟨name, result, args, hCall,
            p, hp, hName, ?_⟩
          · rintro body ⟨p', hp', hName', hBody'⟩
            rw [eq_of_name_eq hNames hp' hp
                (hName'.trans hName.symm),
              Production.expansion?, hBody] at hBody'
            cases hBody'
          · rw [Production.isCode, hBody]

end Calls

/-
  A walk through an expansion comes to what leftmost
  derivations emit, whatever takes over at its bounds: it does
  not come to them.
-/
theorem takes_firstSetTo
    {c : Setting}
    (hFlagged : c.session.Flagged c.grammar)
    (hSane : c.grammar.Sane)
    (hOpen : c.stopAtGuards = false)
    (beyond beyond' : Walk (List Match))
    {depth least : Nat}
    {e : ExpId}
    (hLeast : least < c.limit)
    (hDepth :
      (c.limit - least) * (c.grammar.expansions.size + 1) +
        rank c.grammar.Leads c.grammar.expansions.size e < depth)
    (hReachable : c.grammar.Reachable e) :
    Takes c.grammar c.limit least {[e]}
      (firstSetTo c beyond depth · e)
      (firstSetTo c beyond' depth · e) := by
  induction depth generalizing e least with
  | zero => exact absurd hDepth (Nat.not_lt_zero _)
  | succ depth ih =>
      -- Before the next token, parts come lower and lower.
      have hPart : ∀ part, c.grammar.Leads part e →
          Takes c.grammar c.limit least {[part]}
            (firstSetTo c beyond depth · part)
            (firstSetTo c beyond' depth · part) := by
        intro part hLeads
        have hLess := rank_lt hSane.acyclic
          Grammar.lt_size_of_leads hLeads
        exact ih hLeast (by omega) (hReachable.leads hLeads)
      -- A token makes room for all of them again.
      have hLater : least + 1 < c.limit → ∀ part,
          c.grammar.Reachable part →
          Takes c.grammar c.limit (least + 1) {[part]}
            (firstSetTo c beyond depth · part)
            (firstSetTo c beyond' depth · part) := by
        intro hRoom part hPart
        have hRank : rank c.grammar.Leads
              c.grammar.expansions.size part ≤
            c.grammar.expansions.size :=
          rank_le hSane.acyclic part
        have hSplit : c.limit - least =
            c.limit - (least + 1) + 1 := by
          omega
        rw [hSplit, Nat.add_mul] at hDepth
        exact ih hRoom (by omega) hPart
      have hConsumes := hSane.consumes e hReachable
      have hTimes : c.limit - least < timesBound c :=
        Nat.lt_add_right 1 (Nat.lt_succ_of_le (Nat.sub_le _ _))
      have hOther : (∀ r result member,
            c.grammar.form e ≠ .terminal r result member) →
          (∀ name result args,
            c.grammar.form e ≠ .nonterminal name result args) →
          ∀ {walk walk' : List Match → Walk (List Match)},
            Takes c.grammar c.limit least (c.grammar.ways e)
              walk walk' →
            Takes c.grammar c.limit least {[e]} walk walk' :=
        fun hKept hRules _ _ hTakes => hTakes.of_ways hKept
          fun ⟨name, result, args, hCall, _⟩ =>
            hRules name result args hCall
      unfold Grammar.Leads at hPart
      unfold Grammar.Consumes at hConsumes
      unfold Grammar.ways at hOther
      unfold firstSetTo
      cases hForm : c.grammar.form e with
      | terminal r result member => exact takes_grow hForm
      | nonterminal name result args =>
          rw [hForm] at hPart
          exact takes_call hFlagged.names hForm hPart
      | sequence units =>
          rw [hForm] at hPart hOther
          refine hOther nofun nofun (takes_through units ?_ ?_)
          · intro before u after hUnits hGone
            exact hPart u ⟨before, after, hUnits, hGone⟩
          · intro hRoom u hu
            exact hLater hRoom u (hReachable.child
              (Grammar.childOf_of_sequence hForm hu))
      | choice alternatives =>
          rw [hForm] at hPart hOther
          exact hOther nofun nofun
            (takes_across alternatives hPart)
      | oneOrMore body =>
          rw [hForm] at hPart hConsumes hOther
          exact hOther nofun nofun
            (takes_again hConsumes beyond beyond' hTimes
              (hPart body rfl))
      | zeroOrMore body =>
          rw [hForm] at hPart hConsumes hOther
          dsimp only at hOther
          rw [← Language.one_add_self_mul_kstar_eq_kstar]
            at hOther
          exact hOther nofun nofun
            (takes_beside (takes_again hConsumes beyond beyond'
              hTimes (hPart body rfl)))
      | zeroOrOne body =>
          rw [hForm] at hPart hOther
          exact hOther nofun nofun
            (takes_beside (hPart body rfl))
      | tryBlock body catches cleanup =>
          rw [hForm] at hPart hOther
          exact hOther nofun nofun (hPart body rfl)
      | action code =>
          rw [hForm] at hOther
          exact hOther nofun nofun takes_return
      | lookahead la =>
          rw [hForm] at hOther
          dsimp only
          rw [hOpen]
          exact hOther nofun nofun takes_return

theorem takes_firstSet
    {c : Setting}
    (hFlagged : c.session.Flagged c.grammar)
    (hSane : c.grammar.Sane)
    (hOpen : c.stopAtGuards = false)
    (hLimit : 1 ≤ c.limit)
    {e : ExpId}
    (hReachable : c.grammar.Reachable e)
    (beyond : Walk (List Match)) :
    Takes c.grammar c.limit 0 {[e]} (firstSet c · e)
      (firstSetTo c beyond (firstDepth c) · e) := by
  apply takes_firstSetTo hFlagged hSane hOpen _ _ hLimit ?_
    hReachable
  have hRank : rank c.grammar.Leads
        c.grammar.expansions.size e ≤
      c.grammar.expansions.size :=
    rank_le hSane.acyclic e
  rw [Nat.sub_zero]
  calc c.limit * (c.grammar.expansions.size + 1) + _
      < (c.limit + 1) * (c.grammar.expansions.size + 1) := by
        rw [Nat.add_mul]
        omega
    _ ≤ (c.limit + 2) * (c.grammar.expansions.size + 1) :=
        Nat.mul_le_mul_right _ (Nat.le_succ _)
    _ ≤ firstDepth c := Nat.le_mul_of_pos_right _ (Nat.succ_pos _)

theorem fits_emptyMatch
    {limit : Nat}
    (hLimit : 1 ≤ limit)
    (w : Progress) :
    Fits limit 0 (emptyMatch.run w).1 (emptyMatch.run w).2 := by
  have hOnly : ∀ m ∈ (emptyMatch.run w).1,
      m = ⟨w.nextId + 1, []⟩ :=
    fun m hm => List.mem_singleton.mp hm
  constructor
  · exact fun m _ => Nat.zero_le _
  · intro m hm
    rw [hOnly m hm]
    exact hLimit
  · intro m hm
    rw [hOnly m hm]
    exact le_rfl

/- A walk that starts with the empty match alone. -/
theorem Advances.of_emptyMatch
    {g : Grammar}
    {limit : Nat}
    {e : ExpId}
    {w : Progress}
    {r : List Match × Progress}
    (hAdvances : Advances g limit {[e]} (emptyMatch.run w).1
      (emptyMatch.run w).2 r) :
    (∀ tokens, Among tokens r.1 ↔
      tokens.length < limit ∧ g.Generates [e] tokens) ∧
      ∀ tokens, r.2.Holds tokens ↔
        w.Holds tokens ∨ g.Stops limit [e] tokens := by
  constructor
  · intro tokens
    rw [hAdvances.left]
    refine and_congr_right fun _ => ?_
    constructor
    · rintro ⟨_, hm, more, rfl, _, rfl, hGenerates⟩
      cases List.mem_singleton.mp hm
      exact hGenerates
    · exact fun hGenerates => ⟨_, List.mem_singleton_self _, tokens,
        rfl, [e], rfl, hGenerates⟩
  · intro tokens
    rw [hAdvances.complete]
    refine or_congr_right ?_
    constructor
    · rintro ⟨_, hm, more, rfl, _, rfl, hStops⟩
      cases List.mem_singleton.mp hm
      exact hStops
    · exact fun hStops => ⟨_, List.mem_singleton_self _, tokens,
        rfl, [e], rfl, hStops⟩

/-
  The beginnings of an expansion up to a length, in a grammar
  that passes all checks.  A walk from an empty match returns
  the shorter texts that the expansion generates.  To the
  complete matches it adds the beginnings of this length that
  leftmost derivations emit, and what is emitted before the
  call of a production that is written by hand.  Whatever takes
  over at the bounds of the walk, this is what it does.
-/
theorem firstSet_finds_beginnings
    {b : Builder}
    (hMade : Made b)
    {o : Options}
    (hSanity : o.sanityCheck = true)
    {g : Grammar}
    {s : Session}
    (hPasses : analyze b.grammar (.new o) = (g, s, .ok ()))
    {e : ExpId}
    (hReachable : g.Reachable e)
    {limit : Nat}
    (hLimit : 1 ≤ limit)
    (w : Progress) :
    let c : Setting :=
      { grammar := g, session := s, limit := limit }
    let start := emptyMatch.run w
    let found := (firstSet c start.1 e).run start.2
    (∀ beyond,
      (firstSetTo c beyond (firstDepth c) start.1 e).run
        start.2 = found) ∧
      (∀ tokens, Among tokens found.1 ↔
        tokens.length < limit ∧ g.Generates [e] tokens) ∧
      ∀ tokens, found.2.Holds tokens ↔
        w.Holds tokens ∨
          tokens.length = limit ∧ g.Starts [e] tokens ∨
          tokens.length < limit ∧ g.MeetsCode [e] tokens := by
  intro c start found
  have hFlagged := (flagged_analyze hMade hPasses).2
  have hSane := sane_analyze hMade hSanity hPasses
  have hTakes := fun beyond => takes_firstSet (c := c) hFlagged
    hSane rfl hLimit hReachable beyond start.1 start.2
      (fits_emptyMatch hLimit w)
  have hFound := (hTakes (return [])).2.of_emptyMatch
  refine ⟨fun beyond => (hTakes beyond).1, hFound.1, ?_⟩
  intro tokens
  rw [← Grammar.stops_iff]
  exact hFound.2 tokens

/-
  One token `x` or more, and after them `,` and the same again,
  or what is written by hand, or nothing.
-/
def chain : Calls :=
  [.codeProduction "Hand" .java "void" "{}",
    .literal "x", .oneOrMore 0, .literal ",",
    .nonterminal "Chain" "", .sequence [4, 5],
    .nonterminal "Hand" "", .choice [7, 8], .zeroOrOne 11,
    .sequence [3, 12], .production "Chain" "void" "" 14]

theorem firstSet_finds_beginnings_chain :
    ∃ g s, analyze chain.built.grammar (.new twoAhead) =
        (g, s, .ok ()) ∧
      g.Reachable 14 ∧
      (∀ tokens, tokens.length < 3 ∧ g.Generates [14] tokens ↔
        tokens = [1] ∨ tokens = [1, 1]) ∧
      g.Starts [14] [1, 2, 1] ∧ ¬ g.Starts [14] [1, 2, 2] ∧
      g.MeetsCode [14] [1, 1] := by
  have hMade : Made chain.built := by
    apply Calls.made_built
    simp only [ValidCalls, chain, Call.Valid]
    decide +kernel
  have hResolved :
      (chain.resolved twoAhead).2.diagnostics.errorCount = 0 := by
    cbv
  have hChecked : (Analysis.sanityCheck (chain.resolved twoAhead).1
      (chain.flagged twoAhead)).diagnostics.errorCount = 0 := by
    rw [Analysis.sanityCheck_eq]
    cbv
  have hPasses : analyze chain.built.grammar
        (.new twoAhead) =
      ((chain.resolved twoAhead).1,
        Analysis.sanityCheck (chain.resolved twoAhead).1
          (chain.flagged twoAhead),
        .ok ()) :=
    Calls.analyze_built rfl hResolved hChecked
  have hReachable : (chain.resolved twoAhead).1.Reachable 14 := by
    refine ⟨chain.built.grammar.production 1, ?_, 14, rfl,
      .refl⟩
    rw [Calls.resolved, productions_resolve]
    decide +kernel
  let c : Setting :=
    { grammar := (chain.resolved twoAhead).1
      session := Analysis.sanityCheck (chain.resolved twoAhead).1
        (chain.flagged twoAhead)
      limit := 3 }
  let start := emptyMatch.run {}
  let found := (firstSet c start.1 14).run start.2
  have hTokens : (found.1.map (·.tokens),
        found.2.complete.toList.map (·.tokens)) =
      ([[1], [1, 1]],
        [[1, 1, 1], [1, 1, 2], [1, 2, 1], [1], [1, 1]]) := by
    simp only [found, c, Analysis.sanityCheck_eq]
    cbv
  have hFound :
      (∀ tokens, Among tokens found.1 ↔
        tokens.length < 3 ∧
          (chain.resolved twoAhead).1.Generates [14] tokens) ∧
      ∀ tokens, found.2.Holds tokens ↔
        ({} : Progress).Holds tokens ∨
          tokens.length = 3 ∧
            (chain.resolved twoAhead).1.Starts [14] tokens ∨
          tokens.length < 3 ∧
            (chain.resolved twoAhead).1.MeetsCode [14] tokens :=
    (firstSet_finds_beginnings hMade rfl hPasses hReachable
      (by decide) {}).2
  clear_value found
  rcases Prod.mk.inj hTokens with ⟨hTexts, hComplete⟩
  have hGenerates := fun tokens =>
    List.mem_map.trans (hFound.1 tokens)
  have hStops : ∀ tokens,
      tokens ∈ found.2.complete.toList.map (·.tokens) ↔
        tokens.length = 3 ∧
          (chain.resolved twoAhead).1.Starts [14] tokens ∨
        tokens.length < 3 ∧
          (chain.resolved twoAhead).1.MeetsCode [14] tokens := by
    intro tokens
    rw [List.mem_map]
    simp only [Array.mem_toList_iff]
    exact (hFound.2 tokens).trans
      (or_iff_right (not_holds_fresh tokens))
  rw [hTexts] at hGenerates
  rw [hComplete] at hStops
  refine ⟨_, _, hPasses, hReachable, ?_, ?_, ?_, ?_⟩
  · intro tokens
    rw [← hGenerates]
    simp
  · have hHere := (hStops [1, 2, 1]).mp (by decide)
    simpa using hHere
  · intro hStarts
    have hHere := (hStops [1, 2, 2]).mpr (.inl ⟨rfl, hStarts⟩)
    exact absurd hHere (by decide)
  · have hHere := (hStops [1, 1]).mp (by decide)
    simpa using hHere

end Prefixes

end Descent
