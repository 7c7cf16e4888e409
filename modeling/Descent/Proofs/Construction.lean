import Descent.Grammar.Builder
import Descent.Proofs.Numbering

/-
  Grammars that are put together call by call.

  Every call of a builder names only nodes that are there
  already.  So token expressions and expansions come after
  their parts, every sequence has a lookahead at its head, the
  alternatives of a choice are sequences, and the token
  expression of a terminal is the end of the file or stands in
  a section of its own in the default state.

  Main declarations:
    * `Grammar.Admits`
    * `Grammar.WellFormed`
    * `Call`
    * `Made`
    * `Calls.built`
    * `Made.wellFormed`
    * `Grammar.Laid` and `Made.laid`
-/

------------------------------------------------------------
-- Nodes after a change
------------------------------------------------------------

namespace Descent

namespace Grammar

theorem node_modifyNode
    (g : Grammar)
    (id : ExpId)
    (f : ExpNode → ExpNode)
    (e : ExpId) :
    (g.modifyNode id f).node e =
      if e = id ∧ id < g.expansions.size then f (g.node id)
      else g.node e :=
  getD_modify_at g.expansions f default e id

theorem node_addExpansion
    (g : Grammar)
    (form : Expansion)
    (place : Location)
    (e : ExpId) :
    (g.addExpansion form place).2.node e =
      if e = g.expansions.size then
        { form := form, place := place }
      else g.node e :=
  getD_push g.expansions _ default e

theorem regex_addRegex
    (g : Grammar)
    (form : Regex)
    (place : Location)
    (r : RegexId) :
    (g.addRegex form place).2.regex r =
      if r = g.regexes.size then
        { form := form, place := place }
      else g.regex r :=
  getD_push g.regexes _ default r

theorem tokenSection_modifySection
    (g : Grammar)
    (id : SectionId)
    (f : TokenSection → TokenSection)
    (i : SectionId) :
    (g.modifySection id f).tokenSection i =
      if i = id ∧ id < g.sections.size then
        f (g.tokenSection id)
      else g.tokenSection i :=
  getD_modify_at g.sections f default i id

@[simp] theorem size_modifyNode
    (g : Grammar)
    (id : ExpId)
    (f : ExpNode → ExpNode) :
    (g.modifyNode id f).expansions.size =
      g.expansions.size :=
  Array.size_modify

@[simp] theorem size_modifyRegex
    (g : Grammar)
    (id : RegexId)
    (f : RegexNode → RegexNode) :
    (g.modifyRegex id f).regexes.size = g.regexes.size :=
  Array.size_modify

@[simp] theorem size_modifySection
    (g : Grammar)
    (id : SectionId)
    (f : TokenSection → TokenSection) :
    (g.modifySection id f).sections.size = g.sections.size :=
  Array.size_modify

@[simp] theorem size_addExpansion
    (g : Grammar)
    (form : Expansion)
    (place : Location) :
    (g.addExpansion form place).2.expansions.size =
      g.expansions.size + 1 :=
  Array.size_push _

@[simp] theorem size_addRegex
    (g : Grammar)
    (form : Regex)
    (place : Location) :
    (g.addRegex form place).2.regexes.size =
      g.regexes.size + 1 :=
  Array.size_push _

end Grammar

------------------------------------------------------------
-- Well-formed grammars
------------------------------------------------------------

/- What other expansions ask about the form of one. -/
inductive Shape where
  | sequence
  | choice
  | lookahead
  | other
  deriving DecidableEq

def Expansion.shape : Expansion → Shape
  | .sequence _ => .sequence
  | .choice _ => .choice
  | .lookahead _ => .lookahead
  | _ => .other

/- The parts of a token expression that is not built yet. -/
def Regex.parts : Regex → List RegexId
  | .sequence units => units
  | .choice alternatives => alternatives
  | .oneOrMore body => [body]
  | .zeroOrMore body => [body]
  | .zeroOrOne body => [body]
  | .repetition body _ _ => [body]
  | .literal _ => []
  | .chars _ _ => []
  | .reference _ _ => []
  | .endOfFile => []

namespace Grammar

/- The expression stands in a section that a production implies. -/
def IsImplied
    (g : Grammar)
    (r : RegexId) : Prop :=
  ∃ i < g.sections.size,
    (g.tokenSection i).explicit = false ∧
      ∃ spec ∈ (g.tokenSection i).specs, spec.regex = r

/- An expansion can be the body of a repetition. -/
def Repeats
    (g : Grammar)
    (body : ExpId) : Prop :=
  body < g.expansions.size ∧
    ((g.form body).shape = .sequence ∨
      (g.form body).shape = .choice)

/- An expansion of this form can stand in the grammar. -/
def Admits
    (g : Grammar) : Expansion → Prop
  | .terminal r _ _ =>
      r < g.regexes.size ∧
        ((g.regex r).form = .endOfFile ∨ g.IsImplied r)
  | .nonterminal _ _ _ => True
  | .sequence units =>
      (∀ u ∈ units, u < g.expansions.size) ∧
        ∃ head rest, units = head :: rest ∧
          (g.form head).shape = .lookahead
  | .choice alternatives =>
      ∀ alt ∈ alternatives, alt < g.expansions.size ∧
        (g.form alt).shape = .sequence
  | .oneOrMore body => g.Repeats body
  | .zeroOrMore body => g.Repeats body
  | .zeroOrOne body => g.Repeats body
  | .tryBlock body _ _ =>
      body < g.expansions.size ∧
        (g.form body).shape = .sequence
  | .action _ => True
  | .lookahead la =>
      ∀ target ∈ la.target, target < g.expansions.size

/- Tokens as they are put together. -/
structure TokensFormed
    (g : Grammar) : Prop where
  partsBefore :
    ∀ r, ∀ part ∈ (g.regex r).form.parts, part < r
  unnumbered : ∀ r, (g.regex r).kind = 0
  listed :
    ∀ i < g.sections.size, ∀ spec ∈ (g.tokenSection i).specs,
      spec.regex < g.regexes.size ∧
      ∃ home < g.sections.size,
        (g.regex spec.regex).home = some home ∧
        ∃ spec' ∈ (g.tokenSection home).specs,
          spec'.regex = spec.regex
  implied :
    ∀ i < g.sections.size, (g.tokenSection i).explicit = false →
      (g.tokenSection i).states = some [defaultState] ∧
      (g.tokenSection i).cls = .token ∧
      (g.tokenSection i).ignoreCase = false
  default : defaultState ∈ g.lexicalStates

/- A grammar as it is put together. -/
structure WellFormed
    (g : Grammar) : Prop where
  tokens : g.TokensFormed
  forms : ∀ id < g.expansions.size, g.Admits (g.form id)
  bodies :
    ∀ p ∈ g.productions, ∀ body ∈ p.expansion?,
      body < g.expansions.size ∧
        (g.form body).shape = .sequence

/- What a change of the grammar leaves as it is. -/
structure Grows
    (g g' : Grammar) : Prop where
  regexSize : g.regexes.size ≤ g'.regexes.size
  regexForm :
    ∀ r < g.regexes.size, (g'.regex r).form = (g.regex r).form
  implied : ∀ r, g.IsImplied r → g'.IsImplied r
  sectionSize : g.sections.size ≤ g'.sections.size
  size : g.expansions.size ≤ g'.expansions.size
  shapes :
    ∀ id < g.expansions.size,
      (g'.form id).shape = (g.form id).shape

theorem Grows.refl
    (g : Grammar) :
    g.Grows g :=
  ⟨le_rfl, fun _ _ => rfl, fun _ h => h, le_rfl, le_rfl,
    fun _ _ => rfl⟩

theorem Grows.trans
    {g g' g'' : Grammar}
    (hFirst : g.Grows g')
    (hSecond : g'.Grows g'') :
    g.Grows g'' where
  regexSize := hFirst.regexSize.trans hSecond.regexSize
  regexForm r hr :=
    (hSecond.regexForm r (hr.trans_le hFirst.regexSize)).trans
      (hFirst.regexForm r hr)
  implied r h := hSecond.implied r (hFirst.implied r h)
  sectionSize := hFirst.sectionSize.trans hSecond.sectionSize
  size := hFirst.size.trans hSecond.size
  shapes id h :=
    (hSecond.shapes id (h.trans_le hFirst.size)).trans
      (hFirst.shapes id h)

theorem Admits.mono
    {g g' : Grammar}
    (hGrows : g.Grows g')
    {form : Expansion}
    (hAdmits : g.Admits form) :
    g'.Admits form := by
  have hShape : ∀ {id shape}, id < g.expansions.size →
      (g.form id).shape = shape →
      id < g'.expansions.size ∧ (g'.form id).shape = shape := by
    intro id shape hInside hShape
    exact ⟨hInside.trans_le hGrows.size,
      (hGrows.shapes id hInside).trans hShape⟩
  have hRepeats : ∀ {body}, g.Repeats body →
      g'.Repeats body := by
    intro body hBody
    rcases hBody with ⟨hInside, hSequence | hChoice⟩
    · exact ⟨(hShape hInside hSequence).1,
        .inl (hShape hInside hSequence).2⟩
    · exact ⟨(hShape hInside hChoice).1,
        .inr (hShape hInside hChoice).2⟩
  cases form with
  | terminal r result member =>
      rcases hAdmits with ⟨hInside, hEnd | hImplied⟩
      · refine ⟨hInside.trans_le hGrows.regexSize, .inl ?_⟩
        exact (hGrows.regexForm r hInside).trans hEnd
      · exact ⟨hInside.trans_le hGrows.regexSize,
          .inr (hGrows.implied r hImplied)⟩
  | nonterminal name result args => trivial
  | sequence units =>
      rcases hAdmits with ⟨hInside, head, rest, rfl, hHead⟩
      constructor
      · intro u hu
        exact (hInside u hu).trans_le hGrows.size
      · exact ⟨head, rest, rfl, (hShape
          (hInside head List.mem_cons_self) hHead).2⟩
  | choice alternatives =>
      intro alt hAlt
      exact hShape (hAdmits alt hAlt).1 (hAdmits alt hAlt).2
  | oneOrMore body => exact hRepeats hAdmits
  | zeroOrMore body => exact hRepeats hAdmits
  | zeroOrOne body => exact hRepeats hAdmits
  | tryBlock body catches cleanup =>
      exact hShape hAdmits.1 hAdmits.2
  | action code => trivial
  | lookahead la =>
      intro target hTarget
      exact (hAdmits target hTarget).trans_le hGrows.size

------------------------------------------------------------
-- Changes of tokens
------------------------------------------------------------

/- Only tokens change, and no terminal loses its own. -/
theorem WellFormed.ofTokens
    {g g' : Grammar}
    (hFormed : g.WellFormed)
    (hGrows : g.Grows g')
    (hExpansions : g'.expansions = g.expansions)
    (hProductions : g'.productions = g.productions)
    (hTokens : g'.TokensFormed) :
    g'.WellFormed := by
  have hForm : ∀ id, g'.form id = g.form id := by
    intro id
    simp only [form, node, hExpansions]
  refine ⟨hTokens, ?_, ?_⟩
  · intro id hInside
    rw [hExpansions] at hInside
    rw [hForm]
    exact (hFormed.forms id hInside).mono hGrows
  · intro p hp body hBody
    rw [hProductions] at hp
    rw [hExpansions, hForm]
    exact hFormed.bodies p hp body hBody

theorem grows_addRegex
    (g : Grammar)
    (form : Regex)
    (place : Location) :
    g.Grows (g.addRegex form place).2 := by
  refine ⟨?_, ?_, fun _ h => h, le_rfl, le_rfl, fun _ _ => rfl⟩
  · simp
  · intro r hInside
    rw [regex_addRegex, if_neg (Nat.ne_of_lt hInside)]

theorem WellFormed.addRegex
    {g : Grammar}
    (hFormed : g.WellFormed)
    {form : Regex}
    (hParts : ∀ part ∈ form.parts, part < g.regexes.size)
    (place : Location) :
    (g.addRegex form place).2.WellFormed := by
  have hTokens := hFormed.tokens
  have hRegex := g.regex_addRegex form place
  refine hFormed.ofTokens (g.grows_addRegex form place) rfl rfl
    ⟨?_, ?_, ?_, hTokens.implied, hTokens.default⟩
  · intro r part hPart
    rw [hRegex] at hPart
    split at hPart
    · next hNew =>
        rw [hNew]
        exact hParts part hPart
    · exact hTokens.partsBefore r part hPart
  · intro r
    rw [hRegex]
    split
    · rfl
    · exact hTokens.unnumbered r
  · intro i hi spec hSpec
    rcases hTokens.listed i hi spec hSpec with
      ⟨hInside, home, hHome, hRest⟩
    constructor
    · simp only [size_addRegex]
      exact Nat.lt_succ_of_lt hInside
    · refine ⟨home, hHome, ?_⟩
      rw [hRegex, if_neg (Nat.ne_of_lt hInside)]
      exact hRest

/- A token expression gets another name. -/
theorem grows_modifyRegex
    (g : Grammar)
    (id : RegexId)
    {f : RegexNode → RegexNode}
    (hForm : ∀ r, (f r).form = r.form) :
    g.Grows (g.modifyRegex id f) := by
  refine ⟨?_, ?_, fun _ h => h, le_rfl, le_rfl, fun _ _ => rfl⟩
  · simp
  · intro r _
    rw [regex_modifyRegex]
    split
    · next hSame => rw [hForm, hSame.1]
    · rfl

theorem WellFormed.nameRegex
    {g : Grammar}
    (hFormed : g.WellFormed)
    (id : RegexId)
    {f : RegexNode → RegexNode}
    (hForm : ∀ r, (f r).form = r.form)
    (hKind : ∀ r, (f r).kind = r.kind)
    (hHome : ∀ r, (f r).home = r.home) :
    (g.modifyRegex id f).WellFormed := by
  have hTokens := hFormed.tokens
  have hRegex : ∀ r,
      ((g.modifyRegex id f).regex r).form =
          (g.regex r).form ∧
        ((g.modifyRegex id f).regex r).kind =
          (g.regex r).kind ∧
        ((g.modifyRegex id f).regex r).home =
          (g.regex r).home := by
    intro r
    rw [regex_modifyRegex]
    split
    · next hSame =>
        rw [hSame.1]
        exact ⟨hForm _, hKind _, hHome _⟩
    · exact ⟨rfl, rfl, rfl⟩
  refine hFormed.ofTokens (g.grows_modifyRegex id hForm) rfl rfl
    ⟨?_, ?_, ?_, hTokens.implied, hTokens.default⟩
  · intro r
    rw [(hRegex r).1]
    exact hTokens.partsBefore r
  · intro r
    rw [(hRegex r).2.1]
    exact hTokens.unnumbered r
  · intro i hi spec hSpec
    simp only [size_modifyRegex, (hRegex spec.regex).2.2]
    exact hTokens.listed i hi spec hSpec

theorem WellFormed.addState
    {g : Grammar}
    (hFormed : g.WellFormed)
    (name : String) :
    ({ g with
      lexicalStates := g.lexicalStates ++ [name] } :
        Grammar).WellFormed := by
  have hTokens := hFormed.tokens
  refine hFormed.ofTokens ?_ rfl rfl
    ⟨hTokens.partsBefore, hTokens.unnumbered,
      hTokens.listed, hTokens.implied, ?_⟩
  · exact ⟨le_rfl, fun _ _ => rfl, fun _ h => h, le_rfl, le_rfl,
      fun _ _ => rfl⟩
  · exact List.mem_append_left _ hTokens.default

theorem tokenSection_push
    (g : Grammar)
    (sec : TokenSection)
    (i : SectionId) :
    ({ g with sections := g.sections.push sec } :
        Grammar).tokenSection i =
      if i = g.sections.size then sec else g.tokenSection i :=
  getD_push g.sections sec default i

theorem grows_addSection
    (g : Grammar)
    (sec : TokenSection) :
    g.Grows { g with sections := g.sections.push sec } := by
  refine ⟨le_rfl, fun _ _ => rfl, ?_, ?_, le_rfl,
    fun _ _ => rfl⟩
  · intro r hImplied
    rcases hImplied with ⟨i, hInside, hRest⟩
    refine ⟨i, ?_, ?_⟩
    · simp only [Array.size_push]
      omega
    · rw [tokenSection_push, if_neg (Nat.ne_of_lt hInside)]
      exact hRest
  · simp

theorem WellFormed.addSection
    {g : Grammar}
    (hFormed : g.WellFormed)
    {sec : TokenSection}
    (hSpecs : sec.specs = [])
    (hImplied : sec.explicit = false →
      sec.states = some [defaultState] ∧ sec.cls = .token ∧
        sec.ignoreCase = false) :
    ({ g with sections := g.sections.push sec } :
      Grammar).WellFormed := by
  have hTokens := hFormed.tokens
  refine hFormed.ofTokens (g.grows_addSection sec) rfl rfl
    ⟨hTokens.partsBefore, hTokens.unnumbered, ?_, ?_,
      hTokens.default⟩
  · intro i hi spec hSpec
    simp only [Array.size_push] at hi
    rw [tokenSection_push] at hSpec
    split at hSpec
    · rw [hSpecs] at hSpec
      cases hSpec
    · next hOld =>
        have hBefore : i < g.sections.size :=
          Nat.lt_of_le_of_ne (Nat.lt_succ_iff.mp hi) hOld
        rcases hTokens.listed i hBefore spec hSpec with
          ⟨hInside, home, hHome, hRegex, hBack⟩
        refine ⟨hInside, home, ?_, hRegex, ?_⟩
        · simp only [Array.size_push]
          omega
        · rw [tokenSection_push, if_neg (Nat.ne_of_lt hHome)]
          exact hBack
  · intro i hi hExplicit
    simp only [Array.size_push] at hi
    rw [tokenSection_push] at hExplicit ⊢
    split
    · next hNew =>
        rw [if_pos hNew] at hExplicit
        exact hImplied hExplicit
    · next hOld =>
        rw [if_neg hOld] at hExplicit
        have hBefore : i < g.sections.size :=
          Nat.lt_of_le_of_ne (Nat.lt_succ_iff.mp hi) hOld
        exact hTokens.implied i hBefore hExplicit

/- A section with one more entry. -/
def withSpec
    (home : SectionId)
    (spec : TokenSpec)
    (g : Grammar) : Grammar :=
  (g.modifyRegex spec.regex fun r =>
      { r with home := some home }).modifySection home
    fun s => { s with specs := s.specs ++ [spec] }

theorem tokenSection_withSpec
    (home : SectionId)
    (spec : TokenSpec)
    (g : Grammar)
    (i : SectionId) :
    (withSpec home spec g).tokenSection i =
      if i = home ∧ home < g.sections.size then
        { g.tokenSection home with
          specs := (g.tokenSection home).specs ++ [spec] }
      else g.tokenSection i :=
  tokenSection_modifySection _ home _ i

theorem regex_withSpec
    (home : SectionId)
    (spec : TokenSpec)
    (g : Grammar)
    (r : RegexId) :
    (withSpec home spec g).regex r =
      if r = spec.regex ∧ spec.regex < g.regexes.size then
        { g.regex spec.regex with home := some home }
      else g.regex r :=
  g.regex_modifyRegex spec.regex _ r

/- The entries of a section are still there. -/
theorem mem_specs_withSpec
    {home : SectionId}
    {spec : TokenSpec}
    {g : Grammar}
    {i : SectionId}
    {spec' : TokenSpec}
    (hSpec : spec' ∈ (g.tokenSection i).specs) :
    spec' ∈ ((withSpec home spec g).tokenSection i).specs := by
  rw [tokenSection_withSpec]
  split
  · next hSame =>
      rw [hSame.1] at hSpec
      exact List.mem_append_left _ hSpec
  · exact hSpec

theorem explicit_withSpec
    (home : SectionId)
    (spec : TokenSpec)
    (g : Grammar)
    (i : SectionId) :
    let sec := (withSpec home spec g).tokenSection i
    sec.explicit = (g.tokenSection i).explicit ∧
      sec.states = (g.tokenSection i).states ∧
      sec.cls = (g.tokenSection i).cls ∧
      sec.ignoreCase = (g.tokenSection i).ignoreCase := by
  dsimp only
  rw [tokenSection_withSpec]
  split
  · next hSame =>
      rw [hSame.1]
      exact ⟨rfl, rfl, rfl, rfl⟩
  · exact ⟨rfl, rfl, rfl, rfl⟩

@[simp] theorem size_withSpec
    (home : SectionId)
    (spec : TokenSpec)
    (g : Grammar) :
    (withSpec home spec g).sections.size = g.sections.size :=
  size_modifySection _ home _

theorem grows_withSpec
    (home : SectionId)
    (spec : TokenSpec)
    (g : Grammar) :
    g.Grows (withSpec home spec g) := by
  refine ⟨?_, ?_, ?_, ?_, le_rfl, fun _ _ => rfl⟩
  · exact (size_modifyRegex g _ _).ge
  · intro r _
    rw [regex_withSpec]
    split
    · next hSame => rw [hSame.1]
    · rfl
  · intro r hImplied
    rcases hImplied with ⟨i, hInside, hExplicit, spec', hSpec, hr⟩
    refine ⟨i, ?_, ?_, spec', mem_specs_withSpec hSpec, hr⟩
    · simpa using hInside
    · rw [(explicit_withSpec home spec g i).1]
      exact hExplicit
  · simp

theorem WellFormed.withSpec
    {g : Grammar}
    (hFormed : g.WellFormed)
    {home : SectionId}
    {spec : TokenSpec}
    (hHome : home < g.sections.size)
    (hRegex : spec.regex < g.regexes.size) :
    (Grammar.withSpec home spec g).WellFormed := by
  have hTokens := hFormed.tokens
  have hSections :
      (Grammar.withSpec home spec g).sections.size =
        g.sections.size := size_withSpec home spec g
  have hRegexes : (Grammar.withSpec home spec g).regexes.size =
      g.regexes.size := size_modifyRegex g _ _
  have hSame : ∀ r,
      ((Grammar.withSpec home spec g).regex r).form =
          (g.regex r).form ∧
        ((Grammar.withSpec home spec g).regex r).kind =
          (g.regex r).kind := by
    intro r
    rw [regex_withSpec]
    split
    · next hHere =>
        rw [hHere.1]
        exact ⟨rfl, rfl⟩
    · exact ⟨rfl, rfl⟩
  refine hFormed.ofTokens (grows_withSpec home spec g) rfl rfl
    ⟨?_, ?_, ?_, ?_, hTokens.default⟩
  · intro r
    rw [(hSame r).1]
    exact hTokens.partsBefore r
  · intro r
    rw [(hSame r).2]
    exact hTokens.unnumbered r
  · intro i hi spec' hSpec
    rw [hSections] at hi ⊢
    rw [hRegexes, regex_withSpec]
    by_cases hNew : spec'.regex = spec.regex
    · -- The new entry gives its section to the expression.
      rw [if_pos ⟨hNew, hRegex⟩]
      refine ⟨hNew ▸ hRegex, home, hHome, rfl, spec, ?_,
        hNew.symm⟩
      rw [tokenSection_withSpec, if_pos ⟨rfl, hHome⟩]
      exact List.mem_append_right _ (List.mem_singleton_self _)
    · rw [if_neg fun h => hNew h.1]
      have hOld : spec' ∈ (g.tokenSection i).specs := by
        rw [tokenSection_withSpec] at hSpec
        split at hSpec
        · next hHere =>
            rcases List.mem_append.mp hSpec with hOld | hOne
            · rwa [hHere.1]
            · rw [List.mem_singleton] at hOne
              exact absurd (congrArg _ hOne) hNew
        · exact hSpec
      rcases hTokens.listed i hi spec' hOld with
        ⟨hInside, home', hHome', hIs, spec'', hBack, hSameRegex⟩
      exact ⟨hInside, home', hHome', hIs, spec'',
        mem_specs_withSpec hBack, hSameRegex⟩
  · intro i hi hExplicit
    rw [hSections] at hi
    rcases explicit_withSpec home spec g i with
      ⟨hSame₁, hSame₂, hSame₃, hSame₄⟩
    rw [hSame₁] at hExplicit
    rw [hSame₂, hSame₃, hSame₄]
    exact hTokens.implied i hi hExplicit

------------------------------------------------------------
-- Changes of expansions
------------------------------------------------------------

/- Only expansions and productions change. -/
theorem TokensFormed.congr
    {g g' : Grammar}
    (hTokens : g.TokensFormed)
    (hSame : g.SameTokens g') :
    g'.TokensFormed := by
  have hRegex : ∀ r, g'.regex r = g.regex r := by
    intro r
    simp only [regex, hSame.regexes]
  have hSection : ∀ i,
      g'.tokenSection i = g.tokenSection i := by
    intro i
    simp only [tokenSection, hSame.sections]
  constructor
  · simp only [hRegex]
    exact hTokens.partsBefore
  · simp only [hRegex]
    exact hTokens.unnumbered
  · simp only [hSame.sections, hSection, hSame.regexes, hRegex]
    exact hTokens.listed
  · simp only [hSame.sections, hSection]
    exact hTokens.implied
  · rw [hSame.states]
    exact hTokens.default

theorem grows_addExpansion
    (g : Grammar)
    (form : Expansion)
    (place : Location) :
    g.Grows (g.addExpansion form place).2 := by
  refine ⟨le_rfl, fun _ _ => rfl, fun _ h => h, le_rfl, ?_, ?_⟩
  · simp
  · intro id hInside
    rw [Grammar.form, node_addExpansion,
      if_neg (Nat.ne_of_lt hInside)]
    rfl

theorem form_addExpansion
    (g : Grammar)
    (form : Expansion)
    (place : Location)
    (id : ExpId) :
    (g.addExpansion form place).2.form id =
      if id = g.expansions.size then form else g.form id := by
  rw [Grammar.form, node_addExpansion]
  split
  · rfl
  · rfl

theorem WellFormed.addExpansion
    {g : Grammar}
    (hFormed : g.WellFormed)
    {form : Expansion}
    (hAdmits : g.Admits form)
    (place : Location) :
    (g.addExpansion form place).2.WellFormed := by
  have hGrows := g.grows_addExpansion form place
  refine ⟨hFormed.tokens.congr ⟨rfl, rfl, rfl⟩, ?_, ?_⟩
  · intro id hInside
    rw [size_addExpansion] at hInside
    rw [form_addExpansion]
    split
    · exact hAdmits.mono hGrows
    · next hOld =>
        have hBefore : id < g.expansions.size :=
          Nat.lt_of_le_of_ne (Nat.lt_succ_iff.mp hInside) hOld
        exact (hFormed.forms id hBefore).mono hGrows
  · intro p hp body hBody
    have hBefore := hFormed.bodies p hp body hBody
    exact ⟨hBefore.1.trans_le hGrows.size,
      (hGrows.shapes body hBefore.1).trans hBefore.2⟩

theorem form_modifyNode
    (g : Grammar)
    (id : ExpId)
    (f : ExpNode → ExpNode)
    (e : ExpId) :
    (g.modifyNode id f).form e =
      if e = id ∧ id < g.expansions.size then
        (f (g.node id)).form
      else g.form e := by
  rw [Grammar.form, node_modifyNode]
  split
  · rfl
  · rfl

theorem grows_modifyNode
    (g : Grammar)
    (id : ExpId)
    {f : ExpNode → ExpNode}
    (hShape : (f (g.node id)).form.shape =
      (g.form id).shape) :
    g.Grows (g.modifyNode id f) := by
  refine ⟨le_rfl, fun _ _ => rfl, fun _ h => h, le_rfl, ?_, ?_⟩
  · simp
  · intro e _
    rw [form_modifyNode]
    split
    · next hSame => rw [hShape, hSame.1]
    · rfl

theorem WellFormed.modifyNode
    {g : Grammar}
    (hFormed : g.WellFormed)
    (id : ExpId)
    {f : ExpNode → ExpNode}
    (hShape : (f (g.node id)).form.shape =
      (g.form id).shape)
    (hAdmits : id < g.expansions.size →
      g.Admits (f (g.node id)).form) :
    (g.modifyNode id f).WellFormed := by
  have hGrows := g.grows_modifyNode id hShape
  refine ⟨hFormed.tokens.congr ⟨rfl, rfl, rfl⟩, ?_, ?_⟩
  · intro e hInside
    rw [size_modifyNode] at hInside
    rw [form_modifyNode]
    split
    · next hSame => exact (hAdmits hSame.2).mono hGrows
    · exact (hFormed.forms e hInside).mono hGrows
  · intro p hp body hBody
    have hBefore := hFormed.bodies p hp body hBody
    exact ⟨hBefore.1.trans_le hGrows.size,
      (hGrows.shapes body hBefore.1).trans hBefore.2⟩

/- An expansion gets another owner. -/
theorem WellFormed.own
    {g : Grammar}
    (hFormed : g.WellFormed)
    (id : ExpId)
    (owner : Option Owner) :
    g.Grows (g.modifyNode id fun n =>
        { n with owner := owner }) ∧
      (g.modifyNode id fun n =>
        { n with owner := owner }).WellFormed := by
  constructor
  · exact g.grows_modifyNode id rfl
  · exact hFormed.modifyNode id rfl (hFormed.forms id)

theorem WellFormed.adopt
    {g : Grammar}
    (hFormed : g.WellFormed)
    (owner : ExpId)
    (parts : List ExpId) :
    g.Grows (g.adopt owner parts) ∧
      (g.adopt owner parts).WellFormed := by
  unfold Grammar.adopt
  induction parts generalizing g with
  | nil => exact ⟨.refl g, hFormed⟩
  | cons part parts ih =>
      have hFirst := hFormed.own part (some (.node owner))
      have hRest := ih hFirst.2
      exact ⟨hFirst.1.trans hRest.1, hRest.2⟩

theorem WellFormed.ofProductions
    {g : Grammar}
    (hFormed : g.WellFormed)
    {productions : Array Production}
    (hBodies : ∀ p ∈ productions, ∀ body ∈ p.expansion?,
      body < g.expansions.size ∧
        (g.form body).shape = .sequence) :
    ({ g with productions := productions } :
      Grammar).WellFormed :=
  ⟨hFormed.tokens.congr ⟨rfl, rfl, rfl⟩, hFormed.forms, hBodies⟩

theorem grows_productions
    (g : Grammar)
    (productions : Array Production) :
    g.Grows { g with productions := productions } :=
  ⟨le_rfl, fun _ _ => rfl, fun _ h => h, le_rfl, le_rfl,
    fun _ _ => rfl⟩

------------------------------------------------------------
-- Order of parts
------------------------------------------------------------

/-
  Nodes are added after their parts, and token sections after
  the states that they name.
-/
structure Laid
    (g : Grammar) : Prop where
  states :
    ∀ sec ∈ g.sections, ∀ names ∈ sec.states,
      ∀ name ∈ names, name ∈ g.lexicalStates
  older : ∀ id, ∀ part ∈ g.children id, part < id

theorem form_of_isHeadOf
    {g : Grammar}
    {la seq : ExpId}
    (hHead : g.isHeadOf la seq = true) :
    ∃ rest, g.form seq = .sequence (la :: rest) := by
  unfold isHeadOf at hHead
  split at hHead
  · next u rest hForm =>
      rw [beq_iff_eq] at hHead
      exact ⟨rest, hHead ▸ hForm⟩
  · cases hHead

theorem isHeadOf_of_form
    {g : Grammar}
    {la seq : ExpId}
    {rest : List ExpId}
    (hForm : g.form seq = .sequence (la :: rest)) :
    g.isHeadOf la seq = true := by
  unfold isHeadOf
  rw [hForm]
  exact beq_self_eq_true la

/- An expansion keeps its form, and sequences keep their heads. -/
theorem mem_children_of_form
    {g g' : Grammar}
    {id part : ExpId}
    (hForm : g'.form id = g.form id)
    (hHeads : ∀ seq, g.isHeadOf id seq = true →
      g'.isHeadOf id seq = true)
    (hPart : part ∈ g'.children id) :
    part ∈ g.children id := by
  unfold children at hPart ⊢
  rw [hForm] at hPart
  cases hOld : g.form id with
  | lookahead la =>
      rw [hOld] at hPart
      cases hTarget : la.target with
      | none => simp [hTarget] at hPart
      | some seq =>
          simp only [hTarget] at hPart ⊢
          split at hPart
          · cases hPart
          · next hNot =>
              rw [if_neg fun h => hNot (hHeads seq h)]
              exact hPart
  | _ =>
      rw [hOld] at hPart
      exact hPart

/- The parts of a node that gets an admitted form. -/
theorem Admits.children_lt
    {g g' : Grammar}
    {id : ExpId}
    (hAdmits : g.Admits (g'.form id)) :
    ∀ part ∈ g'.children id, part < g.expansions.size := by
  unfold children
  cases hForm : g'.form id with
  | sequence units =>
      rw [hForm] at hAdmits
      exact hAdmits.1
  | choice alternatives =>
      rw [hForm] at hAdmits
      exact fun part hPart => (hAdmits part hPart).1
  | lookahead la =>
      rw [hForm] at hAdmits
      intro part hPart
      dsimp only at hPart
      split at hPart
      · next seq hTarget =>
          split at hPart
          · cases hPart
          · rw [List.mem_singleton.mp hPart]
            exact hAdmits seq hTarget
      · cases hPart
  | oneOrMore body | zeroOrMore body | zeroOrOne body =>
      rw [hForm] at hAdmits
      exact List.forall_mem_singleton.mpr hAdmits.1
  | tryBlock body catches cleanup =>
      rw [hForm] at hAdmits
      exact List.forall_mem_singleton.mpr hAdmits.1
  | _ => exact fun _ hPart => nomatch hPart

theorem Laid.addState
    {g : Grammar}
    (hLaid : g.Laid)
    (name : String) :
    ({ g with
      lexicalStates := g.lexicalStates ++ [name] } :
      Grammar).Laid where
  states sec hSec names hNames name hName :=
    List.mem_append_left _
      (hLaid.states sec hSec names hNames name hName)
  older := hLaid.older

theorem Laid.addSection
    {g : Grammar}
    (hLaid : g.Laid)
    {s : TokenSection}
    (hStates : ∀ names ∈ s.states, ∀ name ∈ names,
      name ∈ g.lexicalStates) :
    ({ g with sections := g.sections.push s } :
      Grammar).Laid where
  states sec hSec := by
    rcases Array.mem_push.mp hSec with hOld | rfl
    · exact hLaid.states sec hOld
    · exact hStates
  older := hLaid.older

theorem Laid.withSpec
    {g : Grammar}
    (hLaid : g.Laid)
    (home : SectionId)
    (spec : TokenSpec) :
    (Grammar.withSpec home spec g).Laid where
  states sec hSec := by
    rcases Array.mem_iff_getElem?.mp hSec with ⟨i, hAt⟩
    change (g.sections.modify home _)[i]? = some sec at hAt
    rw [Array.getElem?_modify] at hAt
    split at hAt
    · rcases Option.map_eq_some_iff.mp hAt with
        ⟨old, hOld, rfl⟩
      exact hLaid.states old (Array.mem_of_getElem? hOld)
    · exact hLaid.states sec (Array.mem_of_getElem? hAt)
  older := hLaid.older

theorem lt_size_of_isHeadOf
    {g : Grammar}
    {la seq : ExpId}
    (hHead : g.isHeadOf la seq = true) :
    seq < g.expansions.size := by
  rcases form_of_isHeadOf hHead with ⟨rest, hForm⟩
  by_contra hOutside
  have hNone : g.form seq = .action "" := by
    simp only [form, node]
    rw [Array.getD_eq_getD_getElem?,
      Array.getElem?_eq_none (Nat.not_lt.mp hOutside)]
    rfl
  rw [hNone] at hForm
  cases hForm

theorem Laid.addExpansion
    {g : Grammar}
    (hLaid : g.Laid)
    {form : Expansion}
    (hAdmits : g.Admits form)
    (place : Location) :
    (g.addExpansion form place).2.Laid where
  states := hLaid.states
  older id part hPart := by
    have hForms := g.form_addExpansion form place
    have hKept : ∀ seq, seq < g.expansions.size →
        (g.addExpansion form place).2.form seq =
          g.form seq := by
      intro seq hInside
      rw [hForms, if_neg (Nat.ne_of_lt hInside)]
    by_cases hNew : id = g.expansions.size
    · rw [hNew] at hPart ⊢
      have hForm := hForms g.expansions.size
      rw [if_pos rfl] at hForm
      rw [← hForm] at hAdmits
      exact hAdmits.children_lt part hPart
    · have hForm := hForms id
      rw [if_neg hNew] at hForm
      refine hLaid.older id part
        (mem_children_of_form hForm ?_ hPart)
      intro seq hHead
      have hInside := lt_size_of_isHeadOf hHead
      rcases form_of_isHeadOf hHead with ⟨rest, hSeq⟩
      exact isHeadOf_of_form ((hKept seq hInside).trans hSeq)

/- A node changes into one of the same parts. -/
theorem Laid.modifyNode
    {g : Grammar}
    (hLaid : g.Laid)
    {id : ExpId}
    {f : ExpNode → ExpNode}
    (hShape : (g.form id).shape = .sequence →
      (f (g.node id)).form = g.form id)
    (hOlder : ∀ part ∈ (g.modifyNode id f).children id,
      part < id) :
    (g.modifyNode id f).Laid where
  states := hLaid.states
  older e part hPart := by
    by_cases hSame : e = id
    · subst hSame
      exact hOlder part hPart
    · have hForm := g.form_modifyNode id f e
      rw [if_neg fun h => hSame h.1] at hForm
      refine hLaid.older e part
        (mem_children_of_form hForm ?_ hPart)
      intro seq hHead
      rcases form_of_isHeadOf hHead with ⟨rest, hSeq⟩
      have hAfter : (g.modifyNode id f).form seq =
          .sequence (e :: rest) := by
        rw [form_modifyNode]
        split
        · next hHere =>
            rw [hHere.1] at hSeq
            rw [hShape (by rw [hSeq]; rfl)]
            exact hSeq
        · exact hSeq
      exact isHeadOf_of_form hAfter

/- Expansions get other owners, but keep their forms. -/
theorem Laid.ofForms
    {g g' : Grammar}
    (hLaid : g.Laid)
    (hTokens : g.SameTokens g')
    (hForms : ∀ id, g'.form id = g.form id) :
    g'.Laid where
  states sec hSec := by
    rw [hTokens.sections] at hSec
    rw [hTokens.states]
    exact hLaid.states sec hSec
  older id part hPart := by
    refine hLaid.older id part
      (mem_children_of_form (hForms id) ?_ hPart)
    intro seq hHead
    rcases form_of_isHeadOf hHead with ⟨rest, hSeq⟩
    exact isHeadOf_of_form ((hForms seq).trans hSeq)

theorem form_own
    (g : Grammar)
    (id : ExpId)
    (owner : Option Owner)
    (e : ExpId) :
    (g.modifyNode id fun n => { n with owner := owner }).form e =
      g.form e := by
  rw [form_modifyNode]
  split
  · next hHere =>
      rw [hHere.1]
      rfl
  · rfl

theorem form_adopt
    (g : Grammar)
    (owner : ExpId)
    (parts : List ExpId)
    (e : ExpId) :
    (g.adopt owner parts).form e = g.form e := by
  unfold adopt
  induction parts generalizing g with
  | nil => rfl
  | cons part parts ih =>
      rw [List.foldl_cons, ih]
      exact g.form_own part (some (.node owner)) e

theorem Laid.own
    {g : Grammar}
    (hLaid : g.Laid)
    (id : ExpId)
    (owner : Option Owner) :
    (g.modifyNode id fun n => { n with owner := owner }).Laid :=
  hLaid.ofForms (g.sameTokens_modifyNode id _)
    (g.form_own id owner)

theorem Laid.adopt
    {g : Grammar}
    (hLaid : g.Laid)
    (owner : ExpId)
    (parts : List ExpId) :
    (g.adopt owner parts).Laid :=
  hLaid.ofForms (g.sameTokens_adopt owner parts)
    (g.form_adopt owner parts)

/- A lookahead gets its target. -/
theorem Laid.setTarget
    {g : Grammar}
    (hLaid : g.Laid)
    {id target : ExpId}
    (hShape : (g.form id).shape = .lookahead)
    (hOlder : target < id ∨ g.isHeadOf id target = true)
    (la : Lookahead) :
    (g.modifyNode id fun n =>
      { n with
        form := .lookahead
          { la with target := some target } }).Laid := by
  apply hLaid.modifyNode
  · intro hSequence
    rw [hShape] at hSequence
    cases hSequence
  intro part hPart
  have hAfter := g.form_modifyNode id fun n =>
    { n with
      form := .lookahead { la with target := some target } }
  by_cases hInside : id < g.expansions.size
  · have hForm := hAfter id
    rw [if_pos ⟨rfl, hInside⟩] at hForm
    unfold children at hPart
    simp only [hForm] at hPart
    split at hPart
    · cases hPart
    · next hNot =>
        rw [List.mem_singleton.mp hPart]
        rcases hOlder with hBefore | hHead
        · exact hBefore
        · rcases form_of_isHeadOf hHead with ⟨rest, hSeq⟩
          have hOther : target ≠ id := by
            intro hSame
            rw [hSame] at hSeq
            rw [hSeq] at hShape
            cases hShape
          have hKept := hAfter target
          rw [if_neg fun h => hOther h.1] at hKept
          exact absurd (isHeadOf_of_form (hKept.trans hSeq)) hNot
  · have hForms : ∀ e, (g.modifyNode id fun n =>
        { n with
          form := .lookahead
            { la with target := some target } }).form e =
        g.form e := by
      intro e
      rw [hAfter, if_neg fun h => hInside h.2]
    exact (hLaid.ofForms (g.sameTokens_modifyNode id _)
      hForms).older id part hPart

end Grammar

------------------------------------------------------------
-- Builders
------------------------------------------------------------

namespace Build

/- A grammar goes on from another one. -/
structure Extends
    (g g' : Grammar) : Prop where
  grows : g.Grows g'
  formed : g'.WellFormed
  laid : g.Laid → g'.Laid

theorem Extends.trans
    {g g' g'' : Grammar}
    (hFirst : Extends g g')
    (hSecond : Extends g' g'') :
    Extends g g'' :=
  ⟨hFirst.grows.trans hSecond.grows, hSecond.formed,
    fun h => hSecond.laid (hFirst.laid h)⟩

theorem Extends.refl
    {g : Grammar}
    (hFormed : g.WellFormed) :
    Extends g g :=
  ⟨.refl _, hFormed, fun h => h⟩

theorem run_look_bind
    {α β : Type}
    (f : Grammar → α)
    (rest : α → Build β)
    (b : Builder) :
    (look f >>= rest).run b = (rest (f b.grammar)).run b :=
  rfl

theorem extends_regexNode
    {b : Builder}
    (hFormed : b.grammar.WellFormed)
    {form : Regex}
    (hParts : ∀ part ∈ form.parts,
      part < b.grammar.regexes.size) :
    Extends b.grammar ((regexNode form).run b).2.grammar ∧
      ((regexNode form).run b).1 <
        ((regexNode form).run b).2.grammar.regexes.size := by
  constructor
  · exact ⟨Grammar.grows_addRegex _ _ _,
      hFormed.addRegex hParts _, fun h => ⟨h.states, h.older⟩⟩
  · change b.grammar.regexes.size <
      (b.grammar.regexes.push _).size
    simp

theorem extends_label
    {b : Builder}
    (hFormed : b.grammar.WellFormed)
    (id : RegexId)
    (name : String) :
    Extends b.grammar
      ((label id name).run b).2.grammar :=
  ⟨Grammar.grows_modifyRegex _ _ fun _ => rfl,
    hFormed.nameRegex id (fun _ => rfl) (fun _ => rfl)
      fun _ => rfl,
    fun h => ⟨h.states, h.older⟩⟩

theorem extends_privateLabel
    {b : Builder}
    (hFormed : b.grammar.WellFormed)
    (id : RegexId)
    (name : String) :
    Extends b.grammar
      ((privateLabel id name).run b).2.grammar :=
  ⟨Grammar.grows_modifyRegex _ _ fun _ => rfl,
    hFormed.nameRegex id (fun _ => rfl) (fun _ => rfl)
      fun _ => rfl,
    fun h => ⟨h.states, h.older⟩⟩

theorem extends_declareState
    {b : Builder}
    (hFormed : b.grammar.WellFormed)
    (name : String) :
    Extends b.grammar
      ((declareState name).run b).2.grammar := by
  have hGrammar : ((declareState name).run b).2.grammar =
      if b.grammar.lexicalStates.contains name then b.grammar
      else
        { b.grammar with
          lexicalStates := b.grammar.lexicalStates ++ [name] } :=
    rfl
  constructor
  · rw [hGrammar]
    split
    · exact .refl _
    · exact ⟨le_rfl, fun _ _ => rfl, fun _ h => h, le_rfl,
        le_rfl, fun _ _ => rfl⟩
  · rw [hGrammar]
    split
    · exact hFormed
    · exact hFormed.addState name
  · rw [hGrammar]
    intro hLaid
    split
    · exact hLaid
    · exact hLaid.addState name

theorem mem_declareState
    (b : Builder)
    (name : String) :
    name ∈ ((declareState name).run
        b).2.grammar.lexicalStates ∧
      b.grammar.lexicalStates ⊆
        ((declareState name).run b).2.grammar.lexicalStates := by
  have hStates :
      ((declareState name).run b).2.grammar.lexicalStates =
        if b.grammar.lexicalStates.contains name then
          b.grammar.lexicalStates
        else b.grammar.lexicalStates ++ [name] :=
    apply_ite Grammar.lexicalStates _ _ _
  rw [hStates]
  split
  · next hKnown =>
      exact ⟨List.contains_iff_mem.mp hKnown, fun _ h => h⟩
  · simp

theorem extends_declareStates
    {b : Builder}
    (hFormed : b.grammar.WellFormed)
    (names : List String) :
    Extends b.grammar
        ((names.forM declareState).run b).2.grammar ∧
      b.grammar.lexicalStates ⊆
        ((names.forM declareState).run
          b).2.grammar.lexicalStates ∧
      names ⊆ ((names.forM declareState).run
        b).2.grammar.lexicalStates := by
  induction names generalizing b with
  | nil => exact ⟨.refl hFormed, fun _ h => h, nofun⟩
  | cons name names ih =>
      have hFirst := extends_declareState hFormed name
      have hMem := mem_declareState b name
      have hRest := ih hFirst.formed
      refine ⟨hFirst.trans hRest.1, ?_, ?_⟩
      · exact fun _ h => hRest.2.1 (hMem.2 h)
      · exact List.cons_subset.mpr
          ⟨hRest.2.1 hMem.1, hRest.2.2⟩

theorem extends_addSection
    {b : Builder}
    (hFormed : b.grammar.WellFormed)
    {s : TokenSection}
    (hSpecs : s.specs = [])
    (hImplied : s.explicit = false →
      s.states = some [defaultState] ∧ s.cls = .token ∧
        s.ignoreCase = false)
    (hStates : ∀ names ∈ s.states, ∀ name ∈ names,
      name ∈ b.grammar.lexicalStates) :
    Extends b.grammar
      ((addSection s).run b).2.grammar ∧
      ((addSection s).run b).1 <
        ((addSection s).run b).2.grammar.sections.size := by
  constructor
  · exact ⟨Grammar.grows_addSection _ _,
      hFormed.addSection hSpecs hImplied,
      fun hLaid => hLaid.addSection hStates⟩
  · change b.grammar.sections.size <
      (b.grammar.sections.push s).size
    simp

theorem extends_tokenSection
    {b : Builder}
    (hFormed : b.grammar.WellFormed)
    (states : Option (List String))
    (cls : TokenClass)
    (ignoreCase : Bool) :
    Extends b.grammar
      ((tokenSection states cls ignoreCase).run b).2.grammar ∧
      ((tokenSection states cls ignoreCase).run b).1 <
        ((tokenSection states cls ignoreCase).run
          b).2.grammar.sections.size := by
  have hStates := extends_declareStates hFormed
    (states.getD [])
  let b₁ := (((states.getD []).forM declareState).run b).2
  let s : TokenSection :=
    { states := states, cls := cls, ignoreCase := ignoreCase,
      place := b₁.nextPlace }
  have hSection := extends_addSection (b := (takePlace.run b₁).2)
    (s := s) hStates.1.formed rfl
    (fun hExplicit => by cases hExplicit)
    (fun names hNames name hName => by
      have hSome : states = some names := hNames
      have hMem : name ∈ states.getD [] := by
        rw [hSome]
        exact hName
      exact hStates.2.2 hMem)
  exact ⟨hStates.1.trans hSection.1, hSection.2⟩

theorem extends_enlist
    {b : Builder}
    (hFormed : b.grammar.WellFormed)
    {home : SectionId}
    {spec : TokenSpec}
    (hHome : home < b.grammar.sections.size)
    (hRegex : spec.regex < b.grammar.regexes.size) :
    Extends b.grammar
      ((enlist home spec).run b).2.grammar :=
  ⟨Grammar.grows_withSpec home spec b.grammar,
    hFormed.withSpec hHome hRegex,
    fun hLaid => hLaid.withSpec home _⟩

theorem extends_tokenSpec
    {b : Builder}
    (hFormed : b.grammar.WellFormed)
    {home : SectionId}
    {regex : RegexId}
    (hHome : home < b.grammar.sections.size)
    (hRegex : regex < b.grammar.regexes.size)
    (action nextState : Option String) :
    Extends b.grammar
      ((tokenSpec home regex action nextState).run
        b).2.grammar :=
  ⟨Grammar.grows_withSpec home _ b.grammar,
    hFormed.withSpec hHome hRegex,
    fun hLaid => hLaid.withSpec home _⟩

theorem extends_token
    {b : Builder}
    (hFormed : b.grammar.WellFormed)
    (name : String)
    {regex : RegexId}
    (hRegex : regex < b.grammar.regexes.size) :
    Extends b.grammar
      ((token name regex).run b).2.grammar := by
  have hSection := extends_tokenSection hFormed
    (some [defaultState]) .token false
  have hLabel := extends_label hSection.1.formed regex name
  have hBoth := hSection.1.trans hLabel
  apply hBoth.trans
  apply extends_tokenSpec hBoth.formed
  · exact hSection.2.trans_le hLabel.grows.sectionSize
  · exact hRegex.trans_le hBoth.grows.regexSize

/- The section that a terminal implies. -/
def impliedBy
    (r : RegexNode) : TokenSection :=
  { states := some [defaultState], cls := .token,
    explicit := false, place := r.place }

theorem extends_ofForm
    {b : Builder}
    (hFormed : b.grammar.WellFormed)
    {regex : RegexId}
    (hRegex : regex < b.grammar.regexes.size)
    {s : TokenSpec}
    (hSpec : s.regex = regex) :
    let b₁ :=
      (addSection (impliedBy (b.grammar.regex regex))).run b
    Extends b.grammar
        ((enlist b₁.1 s).run b₁.2).2.grammar ∧
      ((enlist b₁.1 s).run b₁.2).2.grammar.IsImplied
        regex := by
  intro b₁
  have hSection := extends_addSection hFormed
    (s := impliedBy (b.grammar.regex regex)) rfl
    (fun _ => ⟨rfl, rfl, rfl⟩)
    (fun names hNames name hName => by
      cases hNames
      rw [List.mem_singleton.mp hName]
      exact hFormed.tokens.default)
  have hInside : s.regex < b₁.2.grammar.regexes.size :=
    hSpec ▸ hRegex.trans_le hSection.1.grows.regexSize
  have hEnlist := extends_enlist hSection.1.formed hSection.2
    hInside
  refine ⟨hSection.1.trans hEnlist, b₁.1, ?_, ?_, s, ?_,
    hSpec⟩
  · exact hSection.2.trans_le hEnlist.grows.sectionSize
  · change ((Grammar.withSpec b₁.1 s
      b₁.2.grammar).tokenSection b₁.1).explicit = false
    rw [(Grammar.explicit_withSpec _ _ _ _).1]
    change (({ b.grammar with sections := _ } :
      Grammar).tokenSection b.grammar.sections.size).explicit =
        false
    rw [Grammar.tokenSection_push, if_pos rfl]
    rfl
  · change s ∈ ((Grammar.withSpec b₁.1 s
      b₁.2.grammar).tokenSection b₁.1).specs
    rw [Grammar.tokenSection_withSpec,
      if_pos ⟨rfl, hSection.2⟩]
    exact List.mem_append_right _ (List.mem_singleton_self _)

/- A terminal has a section of its own unless it ends the file. -/
theorem extends_impliedSection
    {b : Builder}
    (hFormed : b.grammar.WellFormed)
    {regex : RegexId}
    (hRegex : regex < b.grammar.regexes.size) :
    Extends b.grammar
        ((impliedSection regex).run b).2.grammar ∧
      ((((impliedSection regex).run b).2.grammar.regex
          regex).form = .endOfFile ∨
        ((impliedSection regex).run b).2.grammar.IsImplied
          regex) := by
  let s : TokenSpec :=
    { regex := regex,
      nextStatePlace := (b.grammar.regex regex).place }
  have hOther := extends_ofForm hFormed hRegex (s := s) rfl
  unfold impliedSection
  rw [run_look_bind]
  cases hForm : (b.grammar.regex regex).form with
  | endOfFile => exact ⟨.refl hFormed, .inl hForm⟩
  | _ => exact ⟨hOther.1, .inr hOther.2⟩

------------------------------------------------------------
-- Expansions
------------------------------------------------------------

theorem extends_expansionAt
    {b : Builder}
    (hFormed : b.grammar.WellFormed)
    {form : Expansion}
    (hAdmits : b.grammar.Admits form)
    (place : Location) :
    Extends b.grammar
        ((expansionAt form place).run b).2.grammar ∧
      ((expansionAt form place).run b).1 <
        ((expansionAt form place).run
          b).2.grammar.expansions.size ∧
      ((expansionAt form place).run b).2.grammar.form
        ((expansionAt form place).run b).1 = form := by
  refine ⟨⟨Grammar.grows_addExpansion _ _ _,
    hFormed.addExpansion hAdmits place,
    fun hLaid => hLaid.addExpansion hAdmits place⟩, ?_, ?_⟩
  · change b.grammar.expansions.size <
      (b.grammar.expansions.push _).size
    simp
  · change (b.grammar.addExpansion form place).2.form
      b.grammar.expansions.size = form
    rw [Grammar.form_addExpansion, if_pos rfl]

theorem extends_terminal
    {b : Builder}
    (hFormed : b.grammar.WellFormed)
    {regex : RegexId}
    (hRegex : regex < b.grammar.regexes.size) :
    Extends b.grammar ((terminal regex).run b).2.grammar := by
  have hSection := extends_impliedSection hFormed hRegex
  let b₁ := ((impliedSection regex).run b).2
  have hAdmits : b₁.grammar.Admits
      (.terminal regex none none) :=
    ⟨hRegex.trans_le hSection.1.grows.regexSize, hSection.2⟩
  exact hSection.1.trans
    (extends_expansionAt hSection.1.formed hAdmits
      (b₁.grammar.regex regex).place).1

/- A node whose result is kept. -/
def assigned
    (result : String)
    (member : Option String)
    (n : ExpNode) : ExpNode :=
  match n.form with
  | .terminal r _ _ =>
      { n with form := .terminal r (some result) member }
  | .nonterminal name _ args =>
      { n with form := .nonterminal name (some result) args }
  | _ => n

theorem shape_assigned
    (result : String)
    (member : Option String)
    (n : ExpNode) :
    (assigned result member n).form.shape = n.form.shape := by
  unfold assigned
  split
  · next hForm => rw [hForm]; rfl
  · next hForm => rw [hForm]; rfl
  · rfl

theorem admits_assigned
    {g : Grammar}
    {n : ExpNode}
    (hAdmits : g.Admits n.form)
    (result : String)
    (member : Option String) :
    g.Admits (assigned result member n).form := by
  unfold assigned
  split
  · next hForm =>
      rw [hForm] at hAdmits
      exact hAdmits
  · trivial
  · exact hAdmits

/- What is assigned to has no parts. -/
theorem form_assigned
    (result : String)
    (member : Option String)
    (n : ExpNode) :
    (assigned result member n).form = n.form ∨
      n.form.shape = .other ∧
        ∀ (g : Grammar) (id : ExpId),
          g.form id = (assigned result member n).form →
          g.children id = [] := by
  unfold assigned
  split
  · next hForm =>
      right
      refine ⟨by rw [hForm]; rfl, ?_⟩
      intro g id hNow
      unfold Grammar.children
      rw [hNow]
  · next hForm =>
      right
      refine ⟨by rw [hForm]; rfl, ?_⟩
      intro g id hNow
      unfold Grammar.children
      rw [hNow]
  · exact .inl rfl

theorem laid_assigned
    {g : Grammar}
    (hLaid : g.Laid)
    (id : ExpId)
    (result : String)
    (member : Option String) :
    (g.modifyNode id (assigned result member)).Laid := by
  have hAfter := g.form_modifyNode id (assigned result member)
  have hSame : (∀ e, (g.modifyNode id
        (assigned result member)).form e = g.form e) →
      (g.modifyNode id (assigned result member)).Laid :=
    hLaid.ofForms (g.sameTokens_modifyNode id _)
  rcases form_assigned result member (g.node id) with
    hForm | ⟨hShape, hNone⟩
  · apply hSame
    intro e
    rw [hAfter]
    split
    · next hHere =>
        rw [hForm, hHere.1]
        rfl
    · rfl
  · by_cases hInside : id < g.expansions.size
    · apply hLaid.modifyNode
      · intro hSequence
        cases hShape.symm.trans hSequence
      · intro part hPart
        have hHere := hAfter id
        rw [if_pos ⟨rfl, hInside⟩] at hHere
        rw [hNone _ id hHere] at hPart
        cases hPart
    · apply hSame
      intro e
      rw [hAfter, if_neg fun h => hInside h.2]

theorem extends_assign
    {b : Builder}
    (hFormed : b.grammar.WellFormed)
    (id : ExpId)
    (result : String)
    (member : Option String) :
    Extends b.grammar
      ((assign id result member).run b).2.grammar := by
  have hShape := shape_assigned result member
    (b.grammar.node id)
  constructor
  · exact Grammar.grows_modifyNode _ id hShape
  · apply hFormed.modifyNode id hShape
    intro hInside
    exact admits_assigned (hFormed.forms id hInside) result
      member
  · intro hLaid
    exact laid_assigned hLaid id result member

/- A grammar goes on, and an expansion of a shape is there. -/
structure Yields
    (shape : Shape)
    (g : Grammar)
    (r : ExpId × Builder) : Prop where
  goesOn : Extends g r.2.grammar
  inside : r.1 < r.2.grammar.expansions.size
  shape : (r.2.grammar.form r.1).shape = shape

theorem Yields.mono
    {shape : Shape}
    {g : Grammar}
    {r : ExpId × Builder}
    (hYields : Yields shape g r)
    {b : Builder}
    (hExtends : Extends r.2.grammar b.grammar) :
    Yields shape g (r.1, b) := by
  refine ⟨hYields.goesOn.trans hExtends,
    hYields.inside.trans_le hExtends.grows.size, ?_⟩
  rw [hExtends.grows.shapes r.1 hYields.inside]
  exact hYields.shape

/- A lookahead gets its target. -/
theorem extends_setTarget
    {g : Grammar}
    (hFormed : g.WellFormed)
    {id target : ExpId}
    (hShape : (g.form id).shape = .lookahead)
    (hTarget : target < g.expansions.size)
    (hOlder : target < id ∨ g.isHeadOf id target = true)
    (la : Lookahead) :
    Extends g (g.modifyNode id fun n =>
      { n with
        form := .lookahead
          { la with target := some target } }) := by
  constructor
  · exact g.grows_modifyNode id hShape.symm
  · apply Grammar.WellFormed.modifyNode hFormed id
    · exact hShape.symm
    · intro _ target' hSome
      cases hSome
      exact hTarget
  · intro hLaid
    exact hLaid.setTarget hShape hOlder la

/- A sequence and its lookahead, which gets its target last. -/
theorem yields_headedSequence
    {b : Builder}
    (hFormed : b.grammar.WellFormed)
    (amount : Nat)
    (explicit : Bool)
    (guard : Option String)
    {scan : Option ExpId}
    (hScan : ∀ e ∈ scan, e < b.grammar.expansions.size)
    {units : List ExpId}
    (hUnits : ∀ u ∈ units, u < b.grammar.expansions.size) :
    Yields .sequence b.grammar
      ((headedSequence amount explicit guard scan units).run
        b) := by
  let la : Lookahead := ⟨amount, explicit, guard, none⟩
  let r₁ := (expansionAt (.lookahead la) b.nextPlace).run
    (takePlace.run b).2
  have hNone : b.grammar.Admits (.lookahead la) := by
    intro target hTarget
    cases hTarget
  have hHead := extends_expansionAt (b := (takePlace.run b).2)
    hFormed hNone b.nextPlace
  have hAdmits : r₁.2.grammar.Admits
      (.sequence (r₁.1 :: units)) := by
    constructor
    · intro u hu
      rcases List.mem_cons.mp hu with rfl | hu
      · exact hHead.2.1
      · exact (hUnits u hu).trans_le hHead.1.grows.size
    · refine ⟨r₁.1, units, rfl, ?_⟩
      rw [hHead.2.2]
      rfl
  let r₂ := (expansionAt (.sequence (r₁.1 :: units))
    b.nextPlace).run r₁.2
  have hSeq := extends_expansionAt hHead.1.formed hAdmits
    b.nextPlace
  have hYields : Yields .sequence b.grammar r₂ := by
    refine ⟨hHead.1.trans hSeq.1, hSeq.2.1, ?_⟩
    rw [hSeq.2.2]
    rfl
  have hAdopt : Extends r₂.2.grammar
      (r₂.2.grammar.adopt r₂.1 (r₁.1 :: units)) :=
    ⟨(hSeq.1.formed.adopt _ _).1, (hSeq.1.formed.adopt _ _).2,
      fun hLaid => hLaid.adopt _ _⟩
  have hBoth := hSeq.1.trans hAdopt
  have hTarget : scan.getD r₂.1 <
      (r₂.2.grammar.adopt r₂.1
        (r₁.1 :: units)).expansions.size := by
    cases scan with
    | none => exact hSeq.2.1.trans_le hAdopt.grows.size
    | some e =>
        exact (hScan e rfl).trans_le
          (hHead.1.trans hBoth).grows.size
  have hShape : ((r₂.2.grammar.adopt r₂.1
      (r₁.1 :: units)).form r₁.1).shape = .lookahead := by
    rw [hBoth.grows.shapes r₁.1 hHead.2.1, hHead.2.2]
    rfl
  have hOlder : scan.getD r₂.1 < r₁.1 ∨
      (r₂.2.grammar.adopt r₂.1 (r₁.1 :: units)).isHeadOf r₁.1
        (scan.getD r₂.1) = true := by
    cases scan with
    | none =>
        right
        have hForm := r₂.2.grammar.form_adopt r₂.1
          (r₁.1 :: units) r₂.1
        exact Grammar.isHeadOf_of_form (hForm.trans hSeq.2.2)
    | some e => exact .inl (hScan e rfl)
  have hSet := extends_setTarget hAdopt.formed hShape hTarget
    hOlder la
  have hLate := hAdopt.trans hSet
  cases scan with
  | none =>
      exact hYields.mono (b := { r₂.2 with grammar := _ }) hLate
  | some e =>
      have hLast := hSet.formed.adopt r₁.1 [e]
      exact hYields.mono (b := { r₂.2 with grammar := _ })
        (hLate.trans ⟨hLast.1, hLast.2,
          fun hLaid => hLaid.adopt _ _⟩)

theorem yields_sequence
    {b : Builder}
    (hFormed : b.grammar.WellFormed)
    {units : List ExpId}
    (hUnits : ∀ u ∈ units, u < b.grammar.expansions.size) :
    Yields .sequence b.grammar ((sequence units).run b) := by
  have hNone : ∀ e ∈ (none : Option ExpId),
      e < b.grammar.expansions.size := by
    intro e hMem
    cases hMem
  exact yields_headedSequence hFormed b.defaultLookahead false
    none hNone hUnits

theorem yields_lookaheadSequence
    {b : Builder}
    (hFormed : b.grammar.WellFormed)
    (amount : Option Nat)
    {scan : Option ExpId}
    (hScan : ∀ e ∈ scan, e < b.grammar.expansions.size)
    (guard : Option String)
    {units : List ExpId}
    (hUnits : ∀ u ∈ units, u < b.grammar.expansions.size) :
    Yields .sequence b.grammar
      ((lookaheadSequence amount scan guard units).run b) :=
  yields_headedSequence hFormed _ _ _ hScan hUnits

/- An expansion is a sequence or is put into one. -/
theorem yields_asSequence
    {b : Builder}
    (hFormed : b.grammar.WellFormed)
    {id : ExpId}
    (hInside : id < b.grammar.expansions.size) :
    Yields .sequence b.grammar ((asSequence id).run b) := by
  have hUnits : ∀ u ∈ [id], u < b.grammar.expansions.size := by
    intro u hu
    rw [List.mem_singleton.mp hu]
    exact hInside
  have hOne := yields_sequence hFormed hUnits
  unfold asSequence
  rw [run_look_bind]
  cases hForm : b.grammar.form id with
  | sequence units =>
      refine ⟨.refl hFormed, hInside, ?_⟩
      exact congrArg Expansion.shape hForm
  | _ => exact hOne

theorem yields_repetitionBody
    {b : Builder}
    (hFormed : b.grammar.WellFormed)
    {id : ExpId}
    (hInside : id < b.grammar.expansions.size) :
    Yields .sequence b.grammar ((repetitionBody id).run b) ∨
      Yields .choice b.grammar ((repetitionBody id).run b) := by
  have hUnits : ∀ u ∈ [id], u < b.grammar.expansions.size := by
    intro u hu
    rw [List.mem_singleton.mp hu]
    exact hInside
  have hOne := yields_sequence hFormed hUnits
  unfold repetitionBody
  rw [run_look_bind]
  cases hForm : b.grammar.form id with
  | sequence units =>
      left
      refine ⟨.refl hFormed, hInside, ?_⟩
      exact congrArg Expansion.shape hForm
  | choice alternatives =>
      right
      refine ⟨.refl hFormed, hInside, ?_⟩
      exact congrArg Expansion.shape hForm
  | _ => exact .inl hOne

/- The alternatives of a choice become sequences. -/
theorem extends_mapM_asSequence
    {b : Builder}
    (hFormed : b.grammar.WellFormed)
    {ids : List ExpId}
    (hInside : ∀ id ∈ ids, id < b.grammar.expansions.size) :
    Extends b.grammar ((ids.mapM asSequence).run b).2.grammar ∧
      ∀ id ∈ ((ids.mapM asSequence).run b).1,
        id < ((ids.mapM asSequence).run
            b).2.grammar.expansions.size ∧
          (((ids.mapM asSequence).run b).2.grammar.form
            id).shape = .sequence := by
  induction ids generalizing b with
  | nil =>
      refine ⟨.refl hFormed, ?_⟩
      intro id hMem
      cases hMem
  | cons id ids ih =>
      have hFirst := yields_asSequence hFormed
        (hInside id List.mem_cons_self)
      have hRest := ih hFirst.goesOn.formed fun id' hMem =>
        (hInside id' (List.mem_cons_of_mem id hMem)).trans_le
          hFirst.goesOn.grows.size
      rw [List.mapM_cons]
      refine ⟨hFirst.goesOn.trans hRest.1, ?_⟩
      intro id' hMem
      rcases List.mem_cons.mp hMem with rfl | hMem
      · have hLater := hFirst.mono hRest.1
        exact ⟨hLater.inside, hLater.shape⟩
      · exact hRest.2 id' hMem

/- An expansion adopts its parts when it is added. -/
theorem extends_adopting
    {b : Builder}
    (hFormed : b.grammar.WellFormed)
    {form : Expansion}
    (hAdmits : b.grammar.Admits form)
    (place : Location)
    (parts : List ExpId) :
    let r := (expansionAt form place).run b
    Extends b.grammar (r.2.grammar.adopt r.1 parts) := by
  intro r
  have hAdd := extends_expansionAt hFormed hAdmits place
  have hAdopt := hAdd.1.formed.adopt r.1 parts
  exact hAdd.1.trans
    ⟨hAdopt.1, hAdopt.2, fun hLaid => hLaid.adopt _ _⟩

theorem extends_choice
    {b : Builder}
    (hFormed : b.grammar.WellFormed)
    {alternatives : List ExpId}
    (hInside : ∀ alt ∈ alternatives,
      alt < b.grammar.expansions.size) :
    Extends b.grammar
      ((choice alternatives).run b).2.grammar := by
  have hAll := extends_mapM_asSequence hFormed hInside
  unfold choice
  rw [StateT.run_bind]
  generalize (alternatives.mapM asSequence).run b = r at hAll
  rcases r with ⟨alternatives, b₁⟩
  have hAdmits : b₁.grammar.Admits (.choice alternatives) :=
    hAll.2
  cases alternatives with
  | nil =>
      exact hAll.1.trans
        (extends_adopting (b := (takePlace.run b₁).2)
          hAll.1.formed hAdmits b₁.nextPlace [])
  | cons first rest =>
      exact hAll.1.trans
        (extends_adopting hAll.1.formed hAdmits
          (b₁.grammar.place first) (first :: rest))

/- A repetition of a body that is a sequence or a choice. -/
theorem extends_repeated
    {b : Builder}
    (hFormed : b.grammar.WellFormed)
    (make : ExpId → Expansion)
    (hMake : ∀ (g : Grammar) body, g.Repeats body →
      g.Admits (make body))
    {body : ExpId}
    (hInside : body < b.grammar.expansions.size) :
    Extends b.grammar
      ((repeated make body).run b).2.grammar := by
  have hBody := yields_repetitionBody hFormed hInside
  have hGoesOn : Extends b.grammar
        ((repetitionBody body).run b).2.grammar ∧
      ((repetitionBody body).run b).2.grammar.Repeats
        ((repetitionBody body).run b).1 := by
    rcases hBody with hSequence | hChoice
    · exact ⟨hSequence.goesOn, hSequence.inside,
        .inl hSequence.shape⟩
    · exact ⟨hChoice.goesOn, hChoice.inside, .inr hChoice.shape⟩
  unfold repeated
  rw [StateT.run_bind]
  generalize (repetitionBody body).run b = r at hGoesOn
  exact hGoesOn.1.trans
    (extends_adopting (b := (takePlace.run r.2).2)
      hGoesOn.1.formed (hMake _ _ hGoesOn.2) r.2.nextPlace
      [r.1])

theorem extends_tryBlock
    {b : Builder}
    (hFormed : b.grammar.WellFormed)
    {body : ExpId}
    (hInside : body < b.grammar.expansions.size)
    (catches : List CatchClause)
    (cleanup : Option String) :
    Extends b.grammar
      ((tryBlock body catches cleanup).run b).2.grammar := by
  have hBody := yields_asSequence hFormed hInside
  unfold tryBlock
  rw [StateT.run_bind]
  generalize (asSequence body).run b = r at hBody
  have hAdmits : r.2.grammar.Admits
      (.tryBlock r.1 catches cleanup) :=
    ⟨hBody.inside, hBody.shape⟩
  exact hBody.goesOn.trans
    (extends_adopting (b := (takePlace.run r.2).2)
      hBody.goesOn.formed hAdmits r.2.nextPlace [r.1])

------------------------------------------------------------
-- Productions
------------------------------------------------------------

theorem extends_addProduction
    {b : Builder}
    (hFormed : b.grammar.WellFormed)
    {p : Production}
    (hBody : ∀ body ∈ p.expansion?,
      body < b.grammar.expansions.size ∧
        (b.grammar.form body).shape = .sequence) :
    Extends b.grammar ((addProduction p).run b).2.grammar := by
  refine ⟨Grammar.grows_productions _ _,
    hFormed.ofProductions ?_, fun h => ⟨h.states, h.older⟩⟩
  intro p' hMem
  rcases Array.mem_push.mp hMem with hOld | rfl
  · exact hFormed.bodies p' hOld
  · exact hBody

theorem extends_production
    {b : Builder}
    (hFormed : b.grammar.WellFormed)
    (name returnType params : String)
    {body : ExpId}
    (hInside : body < b.grammar.expansions.size) :
    Extends b.grammar
      ((production name returnType params body).run
        b).2.grammar := by
  have hBody := yields_asSequence hFormed hInside
  unfold production
  rw [StateT.run_bind]
  generalize (asSequence body).run b = r at hBody
  let p : Production :=
    { name := name, place := r.2.grammar.place r.1,
      body := .rules r.1 "", returnType := returnType,
      params := params }
  have hAdd := extends_addProduction hBody.goesOn.formed
    (p := p) fun body hSome => by
      cases hSome
      exact ⟨hBody.inside, hBody.shape⟩
  have hOwn := hAdd.formed.own r.1
    (some (.production r.2.grammar.productions.size))
  exact hBody.goesOn.trans (hAdd.trans
    ⟨hOwn.1, hOwn.2, fun hLaid => hLaid.own _ _⟩)

theorem extends_codeProduction
    {b : Builder}
    (hFormed : b.grammar.WellFormed)
    (name : String)
    (language : Language)
    (returnType code : String) :
    Extends b.grammar
      ((codeProduction name language returnType code).run
        b).2.grammar :=
  extends_addProduction (b := (takePlace.run b).2) hFormed
    fun _ hNone => by cases hNone

/- The header of a production changes, but not its body. -/
theorem extends_editProduction
    {b : Builder}
    (hFormed : b.grammar.WellFormed)
    (id : ProdId)
    {f : Production → Production}
    (hBody : ∀ p, (f p).expansion? = p.expansion?) :
    Extends b.grammar
      ((change (·.modifyProduction id f)).run b).2.grammar := by
  refine ⟨Grammar.grows_productions _ _,
    hFormed.ofProductions ?_, fun h => ⟨h.states, h.older⟩⟩
  intro p hMem
  rcases Array.mem_iff_getElem?.mp hMem with ⟨i, hAt⟩
  rw [Array.getElem?_modify] at hAt
  cases hOld : b.grammar.productions[i]? with
  | none =>
      rw [hOld] at hAt
      split at hAt
      · cases hAt
      · cases hAt
  | some old =>
      have hBefore := hFormed.bodies old
        (Array.mem_of_getElem? hOld)
      rw [hOld] at hAt
      split at hAt
      · cases hAt
        rw [hBody]
        exact hBefore
      · cases hAt
        exact hBefore

end Build

------------------------------------------------------------
-- Calls
------------------------------------------------------------

/- A call of a builder. -/
inductive Call where
  /- From here on implicit lookaheads have another amount. -/
  | defaultLookahead (amount : Nat)
  | atLine (line : Nat)
  | regex (form : Regex)
  | label (id : RegexId) (name : String)
  | privateLabel (id : RegexId) (name : String)
  | tokenSection (states : Option (List String))
      (cls : TokenClass) (ignoreCase : Bool)
  | tokenSpec (home : SectionId) (r : RegexId)
      (code nextState : Option String)
  | token (name : String) (r : RegexId)
  | terminal (r : RegexId)
  | literal (image : String)
  | tokenReference (name : String)
  | endOfFile
  | assign (id : ExpId) (result : String)
      (member : Option String)
  | nonterminal (name args : String)
  | action (code : String)
  | sequence (units : List ExpId)
  | lookaheadSequence (amount : Option Nat)
      (scan : Option ExpId) (guard : Option String)
      (units : List ExpId)
  | choice (alternatives : List ExpId)
  | oneOrMore (body : ExpId)
  | zeroOrMore (body : ExpId)
  | zeroOrOne (body : ExpId)
  | tryBlock (body : ExpId) (catches : List CatchClause)
      (cleanup : Option String)
  | production (name returnType params : String) (body : ExpId)
  | codeProduction (name : String) (language : Language)
      (returnType code : String)
  /- The header of a production is changed after the fact. -/
  | editProduction (id : ProdId) (f : Production → Production)

namespace Call

/- The builder after a call; what it hands on is an index. -/
def run
    (b : Builder) : Call → Builder
  | .defaultLookahead amount =>
      { b with defaultLookahead := amount }
  | .atLine line => ((Build.atLine line).run b).2
  | .regex form => ((Build.regexNode form).run b).2
  | .label id name => ((Build.label id name).run b).2
  | .privateLabel id name =>
      ((Build.privateLabel id name).run b).2
  | .tokenSection states cls ignoreCase =>
      ((Build.tokenSection states cls ignoreCase).run b).2
  | .tokenSpec home r code nextState =>
      ((Build.tokenSpec home r code nextState).run b).2
  | .token name r => ((Build.token name r).run b).2
  | .terminal r => ((Build.terminal r).run b).2
  | .literal image => ((Build.literal image).run b).2
  | .tokenReference name =>
      ((Build.tokenReference name).run b).2
  | .endOfFile => (Build.endOfFile.run b).2
  | .assign id result member =>
      ((Build.assign id result member).run b).2
  | .nonterminal name args =>
      ((Build.nonterminal name args).run b).2
  | .action code => ((Build.action code).run b).2
  | .sequence units => ((Build.sequence units).run b).2
  | .lookaheadSequence amount scan guard units =>
      ((Build.lookaheadSequence amount scan guard units).run
        b).2
  | .choice alternatives =>
      ((Build.choice alternatives).run b).2
  | .oneOrMore body => ((Build.oneOrMore body).run b).2
  | .zeroOrMore body => ((Build.zeroOrMore body).run b).2
  | .zeroOrOne body => ((Build.zeroOrOne body).run b).2
  | .tryBlock body catches cleanup =>
      ((Build.tryBlock body catches cleanup).run b).2
  | .production name returnType params body =>
      ((Build.production name returnType params body).run b).2
  | .codeProduction name language returnType code =>
      ((Build.codeProduction name language returnType code).run
        b).2
  | .editProduction id f =>
      ((Build.change (·.modifyProduction id f)).run b).2

/- The call names only nodes that are there. -/
def Valid
    (g : Grammar) : Call → Prop
  | .regex form =>
      ∀ part ∈ form.parts, part < g.regexes.size
  | .tokenSpec home r _ _ =>
      home < g.sections.size ∧ r < g.regexes.size
  | .token _ r => r < g.regexes.size
  | .terminal r => r < g.regexes.size
  | .sequence units => ∀ u ∈ units, u < g.expansions.size
  | .lookaheadSequence _ scan _ units =>
      (∀ e ∈ scan, e < g.expansions.size) ∧
        ∀ u ∈ units, u < g.expansions.size
  | .choice alternatives =>
      ∀ alt ∈ alternatives, alt < g.expansions.size
  | .oneOrMore body => body < g.expansions.size
  | .zeroOrMore body => body < g.expansions.size
  | .zeroOrOne body => body < g.expansions.size
  | .tryBlock body _ _ => body < g.expansions.size
  | .production _ _ _ body => body < g.expansions.size
  | .editProduction _ f =>
      ∀ p, (f p).expansion? = p.expansion?
  | _ => True

theorem extends_run
    {b : Builder}
    (hFormed : b.grammar.WellFormed)
    {c : Call}
    (hValid : c.Valid b.grammar) :
    Build.Extends b.grammar (c.run b).grammar := by
  have hTerminal : ∀ form : Regex, form.parts = [] →
      Build.Extends b.grammar
        ((Build.regexNode form >>= Build.terminal).run
          b).2.grammar := by
    intro form hParts
    have hNode := Build.extends_regexNode hFormed
      (fun part hPart => by rw [hParts] at hPart; cases hPart)
    exact hNode.1.trans
      (Build.extends_terminal hNode.1.formed hNode.2)
  cases c with
  | defaultLookahead amount => exact .refl hFormed
  | atLine line => exact .refl hFormed
  | regex form =>
      exact (Build.extends_regexNode hFormed hValid).1
  | label id name => exact Build.extends_label hFormed id name
  | privateLabel id name =>
      exact Build.extends_privateLabel hFormed id name
  | tokenSection states cls ignoreCase =>
      exact (Build.extends_tokenSection hFormed states cls
        ignoreCase).1
  | tokenSpec home r code nextState =>
      exact Build.extends_tokenSpec hFormed hValid.1 hValid.2
        code nextState
  | token name r =>
      exact Build.extends_token hFormed name hValid
  | terminal r => exact Build.extends_terminal hFormed hValid
  | literal image => exact hTerminal (.literal image) rfl
  | tokenReference name =>
      exact hTerminal (.reference name none) rfl
  | endOfFile => exact hTerminal .endOfFile rfl
  | assign id result member =>
      exact Build.extends_assign hFormed id result member
  | nonterminal name args =>
      have hAdmits : b.grammar.Admits
          (.nonterminal name none args) := trivial
      exact (Build.extends_expansionAt
        (b := (Build.takePlace.run b).2) hFormed hAdmits _).1
  | action code =>
      have hAdmits : b.grammar.Admits (.action code) := trivial
      exact (Build.extends_expansionAt
        (b := (Build.takePlace.run b).2) hFormed hAdmits _).1
  | sequence units =>
      exact (Build.yields_sequence hFormed hValid).goesOn
  | lookaheadSequence amount scan guard units =>
      exact (Build.yields_lookaheadSequence hFormed amount
        hValid.1 guard hValid.2).goesOn
  | choice alternatives =>
      exact Build.extends_choice hFormed hValid
  | oneOrMore body =>
      exact Build.extends_repeated hFormed .oneOrMore
        (fun _ _ hBody => hBody) hValid
  | zeroOrMore body =>
      exact Build.extends_repeated hFormed .zeroOrMore
        (fun _ _ hBody => hBody) hValid
  | zeroOrOne body =>
      exact Build.extends_repeated hFormed .zeroOrOne
        (fun _ _ hBody => hBody) hValid
  | tryBlock body catches cleanup =>
      exact Build.extends_tryBlock hFormed hValid catches
        cleanup
  | production name returnType params body =>
      exact Build.extends_production hFormed name returnType
        params hValid
  | codeProduction name language returnType code =>
      exact Build.extends_codeProduction hFormed name language
        returnType code
  | editProduction id f =>
      exact Build.extends_editProduction hFormed id hValid

end Call

/- A builder that was made by calls, one after the other. -/
inductive Made : Builder → Prop where
  | start : Made {}
  | call
      {b : Builder}
      (hMade : Made b)
      (c : Call)
      (hValid : c.Valid b.grammar) :
      Made (c.run b)

/- What calls put together is well-formed. -/
theorem Made.wellFormed
    {b : Builder}
    (hMade : Made b) :
    b.grammar.WellFormed := by
  induction hMade with
  | start =>
      refine ⟨⟨?_, ?_, ?_, ?_, List.mem_singleton_self _⟩, ?_,
        ?_⟩
      · intro r part hPart
        cases hPart
      · intro r
        rfl
      · intro i hInside
        exact absurd hInside (Nat.not_lt_zero i)
      · intro i hInside
        exact absurd hInside (Nat.not_lt_zero i)
      · intro id hInside
        exact absurd hInside (Nat.not_lt_zero id)
      · intro p hMem
        cases (Array.not_mem_empty p hMem)
  | call _ c hValid ih => exact (c.extends_run ih hValid).formed

/- What calls put together comes after its parts. -/
theorem Made.laid
    {b : Builder}
    (hMade : Made b) :
    b.grammar.Laid := by
  induction hMade with
  | start =>
      constructor
      · intro sec hSec
        cases (Array.not_mem_empty sec hSec)
      · intro id part hPart
        cases hPart
  | call hMade c hValid ih =>
      exact (c.extends_run hMade.wellFormed hValid).laid ih

/- Calls that are valid one after the other. -/
def ValidCalls
    (b : Builder) : List Call → Prop
  | [] => True
  | c :: calls => c.Valid b.grammar ∧ ValidCalls (c.run b) calls

theorem Made.foldl
    {b : Builder}
    (hMade : Made b)
    {calls : List Call}
    (hValid : ValidCalls b calls) :
    Made (calls.foldl (fun b c => c.run b) b) := by
  induction calls generalizing b with
  | nil => exact hMade
  | cons c calls ih =>
      exact ih (hMade.call c hValid.1) hValid.2

/- The calls that put a grammar together. -/
abbrev Calls := List Call

namespace Calls

/- The builder that calls lead to. -/
def built
    (calls : Calls) : Builder :=
  calls.foldl (fun b c => c.run b) {}

theorem made_built
    {calls : Calls}
    (hValid : ValidCalls {} calls) :
    Made calls.built :=
  Made.start.foldl hValid

end Calls

end Descent
