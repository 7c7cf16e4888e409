import Descent.Proofs.Outcome

/-
  References among token expressions.

  An expression refers to all that the references in its tree
  stand for.  Once names are resolved, a reference in an entry
  stands for an entry, or for a literal whose entry was merged
  with another one and which refers to nothing.

  Main declarations:
    * `Grammar.Refers` and `Grammar.Reached`
    * `Grammar.ReferencesResolved`
    * `referencesResolved_resolve`
-/

namespace Descent

open TokenTable (listed)

------------------------------------------------------------
-- References
------------------------------------------------------------

namespace Grammar

/- The tree of one expression holds a reference to another one. -/
def Refers
    (g : Grammar)
    (x y : RegexId) : Prop :=
  ∃ node name,
    Relation.ReflTransGen g.PartOf node x ∧
      (g.regex node).form = .reference name (some y)

/- References lead to an expression from an entry. -/
def Reached
    (g : Grammar)
    (x : RegexId) : Prop :=
  ∃ root ∈ listed g, Relation.ReflTransGen g.Refers root x

/-
  What an entry refers to is an entry or refers to nothing, as
  a literal does.
-/
def ReferencesResolved
    (g : Grammar) : Prop :=
  ∀ x ∈ listed g, ∀ y, g.Refers x y →
    y ∈ listed g ∨ ∀ z, ¬g.Refers y z

section Trees

variable {g : Grammar}
variable {x y : RegexId}

theorem Refers.of_part
    {part : RegexId}
    (hPart : g.PartOf part x)
    (hRefers : g.Refers part y) :
    g.Refers x y := by
  rcases hRefers with ⟨node, name, hWithin, hForm⟩
  exact ⟨node, name, hWithin.tail hPart, hForm⟩

/- A reference refers to what it stands for. -/
theorem refers_of_reference
    {name : String}
    {target : Option RegexId}
    (hForm : (g.regex x).form = .reference name target) :
    g.Refers x y ↔ target = some y := by
  constructor
  · rintro ⟨node, name', hWithin, hNode⟩
    have hSame : node = x := by
      rcases Relation.ReflTransGen.cases_tail hWithin with
        hSame | ⟨part, -, hPart⟩
      · exact hSame.symm
      · unfold PartOf regexChildren at hPart
        rw [hForm] at hPart
        cases hPart
    rw [hSame, hForm] at hNode
    cases hNode
    rfl
  · rintro rfl
    exact ⟨x, name, .refl, hForm⟩

/- Any other expression refers to what its parts refer to. -/
theorem refers_iff_parts
    (hForm : ∀ name target,
      (g.regex x).form ≠ .reference name target) :
    g.Refers x y ↔
      ∃ part ∈ g.regexChildren x, g.Refers part y := by
  constructor
  · rintro ⟨node, name, hWithin, hNode⟩
    rcases Relation.ReflTransGen.cases_tail hWithin with
      rfl | ⟨part, hBelow, hPart⟩
    · exact absurd hNode (hForm name (some y))
    · exact ⟨part, hPart, node, name, hBelow, hNode⟩
  · rintro ⟨part, hPart, hRefers⟩
    exact hRefers.of_part hPart

/- In a resolved grammar, references stay among the entries. -/
theorem ReferencesResolved.mem_listed
    (hResolved : g.ReferencesResolved)
    (hReached : g.Reached x)
    (hRefers : g.Refers x y) :
    x ∈ listed g := by
  rcases hReached with ⟨root, hRoot, hSteps⟩
  have hEither : x ∈ listed g ∨ ∀ z, ¬g.Refers x z := by
    clear hRefers
    induction hSteps with
    | refl => exact .inl hRoot
    | tail _ hStep ih =>
        have hMem := ih.resolve_right fun hNone => hNone _ hStep
        exact hResolved _ hMem _ hStep
  exact hEither.resolve_right fun hNone => hNone y hRefers

/- The walk over a tree comes to all its nodes. -/
theorem mem_regexPreOrderTo
    (hTree : g.RegexTree)
    {node root : RegexId}
    (hWithin : Relation.ReflTransGen g.PartOf node root)
    {depth : Nat}
    (hDepth : g.height root ≤ depth) :
    node ∈ g.regexPreOrderTo depth root := by
  induction depth generalizing root with
  | zero =>
      have hPos := g.height_pos root
      omega
  | succ depth ih =>
      unfold regexPreOrderTo
      rcases Relation.ReflTransGen.cases_tail hWithin with
        rfl | ⟨part, hBelow, hPart⟩
      · exact List.mem_cons_self
      · apply List.mem_cons_of_mem
        have hLess := height_lt_of_partOf hTree hPart
        exact List.mem_flatMap.mpr
          ⟨part, hPart, ih hBelow (by omega)⟩

theorem mem_regexPreOrder
    (hTree : g.RegexTree)
    {node root : RegexId}
    (hWithin : Relation.ReflTransGen g.PartOf node root) :
    node ∈ g.regexPreOrder root :=
  mem_regexPreOrderTo hTree hWithin (height_le hTree root)

end Trees

end Grammar

namespace TokenTable

------------------------------------------------------------
-- Directing references
------------------------------------------------------------

/- A reference stands for what its name stands for. -/
def Directed
    (names : Assoc String RegexId)
    (g : Grammar)
    (id : RegexId) : Prop :=
  ∀ name target, (g.regex id).form = .reference name target →
    ∃ named, Assoc.get? name names = some named ∧
      target = some named

/- Names stay, and in the end some references are directed. -/
structure Directs
    (names : Assoc String RegexId)
    (gs gs' : Grammar × Session)
    (among : RegexId → Prop) : Prop where
  named : gs'.2.namedTokens = names
  before : ∀ r, Directed names gs.1 r → Directed names gs'.1 r
  directed : ∀ r, among r → Directed names gs'.1 r

section Directing

variable {names : Assoc String RegexId}

theorem Directs.trans
    {gs gs' gs'' : Grammar × Session}
    {among among' : RegexId → Prop}
    (hFirst : Directs names gs gs' among)
    (hSecond : Directs names gs' gs'' among') :
    Directs names gs gs'' fun r => among r ∨ among' r := by
  refine ⟨hSecond.named,
    fun r h => hSecond.before r (hFirst.before r h), ?_⟩
  rintro r (hAmong | hAmong)
  · exact hSecond.before r (hFirst.directed r hAmong)
  · exact hSecond.directed r hAmong

theorem Directs.mono
    {gs gs' : Grammar × Session}
    {among among' : RegexId → Prop}
    (hDirects : Directs names gs gs' among)
    (hFewer : ∀ r, among' r → among r) :
    Directs names gs gs' among' :=
  ⟨hDirects.named, hDirects.before,
    fun r h => hDirects.directed r (hFewer r h)⟩

theorem directs_pointTo
    {g : Grammar}
    {s : Session}
    (hNames : s.namedTokens = names)
    {id target : RegexId}
    {name : String}
    (hTarget : Assoc.get? name names = some target)
    (hInside : id < g.regexes.size) :
    Directs names (g, s) (pointTo g id name target, s)
      (· = id) := by
  have hRegex : ∀ r, (pointTo g id name target).regex r =
      if r = id ∧ id < g.regexes.size then
        { g.regex id with
          kind := (g.regex target).kind,
          form := .reference name (some target) }
      else g.regex r :=
    fun r => g.regex_modifyRegex id _ r
  have hHere : Directed names (pointTo g id name target) id := by
    intro name' target' hForm
    rw [hRegex, if_pos ⟨rfl, hInside⟩] at hForm
    cases hForm
    exact ⟨target, hTarget, rfl⟩
  refine ⟨hNames, ?_, ?_⟩
  · intro r hDirected
    by_cases hSame : r = id
    · rw [hSame]
      exact hHere
    · intro name' target' hForm
      rw [hRegex, if_neg fun h => hSame h.1] at hForm
      exact hDirected name' target' hForm
  · rintro r rfl
    exact hHere

theorem directs_resolveReference
    {gs : Grammar × Session}
    (hNames : gs.2.namedTokens = names)
    {explicit : Bool}
    {root id : RegexId}
    (hClean : (resolveReference explicit root gs
      id).2.Clean) :
    Directs names gs (resolveReference explicit root gs id)
      (· = id) := by
  rcases gs with ⟨g, s⟩
  dsimp only at hNames
  rcases resolveReference_cases explicit root g s id with
    ⟨name, old, target, hForm, hGet, hSame⟩ |
    ⟨place, message, hSame⟩ | ⟨hNot, hSame⟩
  · rw [hSame]
    rw [hNames] at hGet
    exact directs_pointTo hNames hGet
      (Grammar.lt_size_of_form (by simp [hForm]))
  · rw [hSame] at hClean
    exact absurd hClean (Session.not_clean_error _ _ _)
  · rw [hSame]
    refine ⟨hNames, fun _ h => h, ?_⟩
    rintro r rfl name target hReference
    unfold isReference at hNot
    rw [hReference] at hNot
    cases hNot

theorem directs_foldl_resolveReference
    {explicit : Bool}
    {root : RegexId}
    (ids : List RegexId)
    {gs : Grammar × Session}
    (hNames : gs.2.namedTokens = names)
    (hClean : (ids.foldl (resolveReference explicit root)
      gs).2.Clean) :
    Directs names gs
      (ids.foldl (resolveReference explicit root) gs)
      (· ∈ ids) := by
  induction ids generalizing gs with
  | nil =>
      exact ⟨hNames, fun _ h => h, List.forall_mem_nil _⟩
  | cons id ids ih =>
      rw [List.foldl_cons] at hClean ⊢
      have hHere := (rel_foldl Resolves.refl Resolves.trans
        (resolves_resolveReference explicit root) ids _).1
          hClean
      have hFirst := directs_resolveReference hNames hHere
      exact (hFirst.trans (ih hFirst.named hClean)).mono
        fun r hr => List.mem_cons.mp hr

/- All references in the trees of entries are directed. -/
theorem directs_foldl_resolveSpec
    {g : Grammar}
    (hTree : g.RegexTree)
    (items : List Item)
    {a : Grammar × Session × List SpecPos}
    (hKeeps : g.Keeps a.1)
    (hNames : a.2.1.namedTokens = names)
    (hClean : (items.foldl resolveSpec a).2.1.Clean) :
    Directs names (a.1, a.2.1)
      ((items.foldl resolveSpec a).1,
        (items.foldl resolveSpec a).2.1)
      fun r => ∃ e ∈ items,
        Relation.ReflTransGen g.PartOf r e.2.1.regex := by
  induction items generalizing a with
  | nil =>
      refine ⟨hNames, fun _ h => h, ?_⟩
      rintro r ⟨e, he, -⟩
      cases he
  | cons e items ih =>
      rw [List.foldl_cons] at hClean ⊢
      have hHere := (rel_foldl
        (R := fun acc acc' : Grammar × Session × List SpecPos =>
          Resolves (acc.1, acc.2.1) (acc'.1, acc'.2.1))
        (fun _ => Resolves.refl _) Resolves.trans
        resolves_resolveSpec items _).1 hClean
      have hFirst := directs_foldl_resolveReference
        (a.1.regexPreOrder e.2.1.regex) hNames hHere
      have hRest := ih
        (hKeeps.trans (resolves_resolveSpec a e).2.keeps)
        hFirst.named hClean
      have hSame : a.1.PartOf = g.PartOf := by
        funext part whole
        unfold Grammar.PartOf
        rw [hKeeps.regexChildren]
      refine (hFirst.trans hRest).mono ?_
      rintro r ⟨e', he', hWithin⟩
      rcases List.mem_cons.mp he' with rfl | he'
      · left
        rw [← hSame] at hWithin
        exact Grammar.mem_regexPreOrder
          (hKeeps.regexTree hTree) hWithin
      · exact .inr ⟨e', he', hWithin⟩

end Directing

------------------------------------------------------------
-- Entries that numbering drops
------------------------------------------------------------

/- An expression is a literal. -/
def IsLiteral
    (g : Grammar)
    (id : RegexId) : Prop :=
  ∃ image, (g.regex id).form = .literal image

theorem mem_marked_numberRepeated
    {n : Numbering}
    {sec : TokenSection}
    {state image : String}
    {id existing : RegexId}
    {pos p : SpecPos}
    (hMarked : p ∈ (numberRepeated n sec state image id existing
      pos).marked) :
    p = pos ∨ p ∈ n.marked := by
  unfold numberRepeated at hMarked
  dsimp only at hMarked
  split at hMarked
  · exact .inr hMarked
  · split at hMarked
    · exact .inr hMarked
    · split at hMarked
      · exact .inr hMarked
      · exact List.mem_cons.mp hMarked

theorem marked_takeKindOnce
    (n : Numbering)
    (id : RegexId) :
    (n.takeKindOnce id).marked = n.marked := by
  unfold Numbering.takeKindOnce
  split
  · rfl
  · rfl

theorem mem_marked_numberLiteral
    {sec : TokenSection}
    {image : String}
    {id : RegexId}
    {pos p : SpecPos}
    {n : Numbering}
    {state : String}
    (hMarked : p ∈ (numberLiteral sec image id pos n
      state).marked) :
    p = pos ∨ p ∈ n.marked := by
  have hEnter : ∀ (n : Numbering) (upper : String),
      p ∈ ((n.takeKindOnce id).enterVariant state upper image
        id).marked → p ∈ n.marked := by
    intro n upper hMem
    change p ∈ (n.takeKindOnce id).marked at hMem
    rwa [marked_takeKindOnce] at hMem
  unfold numberLiteral at hMarked
  dsimp only at hMarked
  split at hMarked
  · exact .inr (hEnter _ _ hMarked)
  · split at hMarked
    · exact .inr hMarked
    · split at hMarked
      · have hBefore := hEnter _ _ hMarked
        exact .inr hBefore
      · split at hMarked
        · exact mem_marked_numberRepeated hMarked
        · exact .inr (hEnter _ _ hMarked)

/- Only a literal is marked, at its own place. -/
theorem mem_marked_numberSpec
    {sec : TokenSection}
    {states : List String}
    {n : Numbering}
    {e : TokenSpec × SpecPos}
    {p : SpecPos}
    (hMarked : p ∈ (numberSpec sec states n e).marked) :
    p ∈ n.marked ∨
      p = e.2 ∧ IsLiteral n.grammar e.1.regex := by
  rcases e with ⟨spec, pos⟩
  unfold numberSpec at hMarked
  dsimp only at hMarked ⊢
  split at hMarked
  · next image hForm =>
      have hAll : ∀ (states : List String) (n : Numbering),
          p ∈ (states.foldl
            (numberLiteral sec image spec.regex pos)
            n).marked → p = pos ∨ p ∈ n.marked := by
        intro states
        induction states with
        | nil =>
            intro n hMem
            exact .inr hMem
        | cons state states ih =>
            intro n hMem
            rcases ih _ hMem with hHere | hMem
            · exact .inl hHere
            · exact mem_marked_numberLiteral hMem
      rcases hAll states n hMarked with hHere | hMem
      · exact .inr ⟨hHere, image, hForm⟩
      · exact .inl hMem
  · exact .inl hMarked
  · exact .inl hMarked

theorem mem_marked_foldl_numberSpec
    {sec : TokenSection}
    {states : List String}
    (specs : List (TokenSpec × SpecPos))
    {n : Numbering}
    (hClean : (specs.foldl (numberSpec sec states)
      n).session.Clean)
    {p : SpecPos}
    (hMarked : p ∈ (specs.foldl (numberSpec sec states)
      n).marked) :
    p ∈ n.marked ∨ ∃ e ∈ specs,
      p = e.2 ∧ IsLiteral n.grammar e.1.regex := by
  induction specs generalizing n with
  | nil => exact .inl hMarked
  | cons e specs ih =>
      rw [List.foldl_cons] at hClean hMarked
      have hForms := (leaves_foldl_numberSpec [e]
        (leaves_foldl_numberSpec specs hClean).1).2.forms
      rcases ih hClean hMarked with
        hMem | ⟨e', he', hPlace, image, hForm⟩
      · rcases mem_marked_numberSpec hMem with hMem | hHere
        · exact .inl hMem
        · exact .inr ⟨e, List.mem_cons_self, hHere⟩
      · refine .inr ⟨e', List.mem_cons_of_mem e he', hPlace,
          image, ?_⟩
        rw [← hForm]
        exact (hForms e'.1.regex).symm

/- Only literals of a section are marked. -/
theorem mem_marked_numberSection
    {g : Grammar}
    {i : Nat}
    (hInside : i < g.sections.size)
    {n : Numbering}
    (hSettled : SettledBefore g i n.grammar)
    (hClean : (numberSection n i).session.Clean)
    {p : SpecPos}
    (hMarked : p ∈ (numberSection n i).marked) :
    p ∈ n.marked ∨ ∃ e ∈ allSpecs g,
      p = e.2.2 ∧ IsLiteral g e.2.1.regex := by
  have hSection : g.sections[i]? = some g.sections[i] :=
    Array.getElem?_eq_getElem hInside
  have hHere : n.grammar.sections[i]? = some g.sections[i] := by
    rw [hSettled.sections, hSection, Option.map_some,
      if_neg (Nat.lt_irrefl i)]
  have hSpecs : ((n.grammar.modifySection i fun sec =>
      { sec with
        states := some (n.grammar.statesOf i) }).tokenSection
          i).specs = g.sections[i].specs := by
    unfold Grammar.modifySection Grammar.tokenSection
    rw [Array.getD_eq_getD_getElem?, Array.getElem?_modify,
      if_pos rfl, hHere]
    rfl
  unfold numberSection at hClean hMarked
  dsimp only at hClean hMarked
  rw [hSpecs] at hClean hMarked
  rcases mem_marked_foldl_numberSpec _ hClean hMarked with
    hBefore | ⟨e, he, hPlace, image, hForm⟩
  · exact .inl hBefore
  · rcases List.mem_map.mp he with ⟨⟨spec, j⟩, hSpec, rfl⟩
    refine .inr ⟨(g.sections[i], spec, (i, j)), ?_, hPlace,
      image, ?_⟩
    · exact mem_allSpecs.mpr
        ⟨hSection, List.mem_zipIdx_iff_getElem?.mp hSpec⟩
    · rw [← hSettled.forms]
      exact hForm

theorem mem_marked_foldl_numberSection
    {g : Grammar}
    {n : Numbering}
    (hGrammar : n.grammar = g)
    (i : Nat)
    (hInside : i ≤ g.sections.size)
    (hClean : ((List.range i).foldl numberSection
      n).session.Clean)
    {p : SpecPos}
    (hMarked : p ∈ ((List.range i).foldl numberSection
      n).marked) :
    p ∈ n.marked ∨ ∃ e ∈ allSpecs g,
      p = e.2.2 ∧ IsLiteral g e.2.1.regex := by
  induction i with
  | zero => exact .inl hMarked
  | succ i ih =>
      rw [List.range_succ, List.foldl_append,
        List.foldl_cons, List.foldl_nil] at hClean hMarked
      have hBefore := (sustained_numberSection hInside hClean).1
      have hSettled := settledBefore_foldl_numberSection
        hGrammar i (Nat.le_of_succ_le hInside) hBefore
      rcases mem_marked_numberSection hInside hSettled hClean
        hMarked with hOld | hHere
      · exact ih (Nat.le_of_succ_le hInside) hBefore hOld
      · exact .inr hHere

/- Numbering drops literals only, and leaves all forms. -/
theorem exists_numbering_assignKinds
    {g : Grammar}
    {s : Session}
    (hClean : (assignKinds g s).2.Clean) :
    ∃ n : Numbering,
      (assignKinds g s).1 = dropSpecs n.grammar n.marked ∧
      SettledBefore g g.sections.size n.grammar ∧
      ∀ p ∈ n.marked, ∃ e ∈ allSpecs g,
        p = e.2.2 ∧ IsLiteral g e.2.1.regex := by
  refine ⟨_, rfl, settledBefore_foldl_numberSection rfl
    g.sections.size le_rfl hClean, ?_⟩
  intro p hMarked
  exact (mem_marked_foldl_numberSection rfl g.sections.size
    le_rfl hClean hMarked).resolve_left List.not_mem_nil

/- An entry keeps its place unless it is a literal. -/
theorem mem_listed_assignKinds
    {g : Grammar}
    {s : Session}
    (hClean : (assignKinds g s).2.Clean) :
    (∀ id, ((assignKinds g s).1.regex id).form =
        (g.regex id).form) ∧
      ∀ id ∈ listed g,
        id ∈ listed (assignKinds g s).1 ∨ IsLiteral g id := by
  rcases exists_numbering_assignKinds hClean with
    ⟨n, hDropped, hSettled, hMarks⟩
  rw [hDropped]
  refine ⟨hSettled.forms, ?_⟩
  intro id hListed
  rw [listed_eq_allSpecs] at hListed
  rcases List.mem_map.mp hListed with ⟨e, he, rfl⟩
  have hThere := mem_itemsBefore_of_mem he
  rw [itemsBefore_eq_allSpecs hSettled] at hThere
  by_cases hMarked : e.2.2 ∈ n.marked
  · rcases hMarks _ hMarked with ⟨e', he', hPlace, hIs⟩
    right
    rwa [eq_of_place_eq he he' hPlace]
  · rcases exists_mem_dropSpecs
        (mem_unmarked.mpr ⟨hThere, hMarked⟩) with
      ⟨e', he', hSame, -⟩
    left
    rw [listed_eq_allSpecs]
    refine List.mem_map.mpr ⟨e', he', ?_⟩
    rw [hSame]

------------------------------------------------------------
-- Resolved references
------------------------------------------------------------

theorem keeps_resolveReferences
    (g : Grammar)
    (s : Session) :
    g.Keeps (resolveReferences g s).1 := by
  rcases resolves_resolveReferences g s with
    ⟨g', marked, hPoints, hDropped, -⟩
  rw [hDropped]
  exact hPoints.keeps

/- References below entries stand for what is named. -/
theorem directed_resolveReferences
    {g : Grammar}
    (hTree : g.RegexTree)
    {s : Session}
    (hClean : (resolveReferences g s).2.Clean)
    {node root : RegexId}
    (hRoot : root ∈ listed g)
    (hWithin : Relation.ReflTransGen g.PartOf node root) :
    Directed s.namedTokens (resolveReferences g s).1 node := by
  have hDirects := directs_foldl_resolveSpec hTree (allSpecs g)
    (a := (g, s, [])) (.refl g) rfl hClean
  rw [listed_eq_allSpecs] at hRoot
  rcases List.mem_map.mp hRoot with ⟨e, he, rfl⟩
  exact hDirects.directed node ⟨e, he, hWithin⟩

end TokenTable

open TokenTable

theorem Grammar.not_refers_of_isLiteral
    {g : Grammar}
    {x y : RegexId}
    (hLiteral : IsLiteral g x) :
    ¬g.Refers x y := by
  rcases hLiteral with ⟨image, hForm⟩
  rw [refers_iff_parts (by simp [hForm])]
  rintro ⟨part, hPart, -⟩
  unfold regexChildren at hPart
  rw [hForm] at hPart
  cases hPart

/- Named tokens are entries that are no references. -/
theorem Analysis.listed_of_named
    {g : Grammar}
    {s : Session}
    (hNames : s.namedTokens = [])
    {name : String}
    {target : RegexId}
    (hGet : Assoc.get? name (numbered g s).2.namedTokens =
      some target) :
    target ∈ listed (checked g s).1 ∧
      isReference ((checked g s).1.regex target) = false := by
  have hKinds := (spares_assignKinds (checked g s).1
    (collectNames (checked g s).1 (checked g s).2)).1
  have hChecked : (called g s).MeetsEnd (checked g s).2 :=
    meetsEnd_checkSections _ _
  have hStart := (hChecked.field (·.namedTokens)
    fun _ => rfl).trans ((entersNames_called g s).field
      (·.namedTokens) fun _ => rfl)
  unfold numbered at hGet
  rw [hKinds.field (·.namedTokens) fun _ => rfl] at hGet
  rcases (collects_collectNames _ _).named name target hGet with
    hBefore | hHere
  · rw [hStart, hNames] at hBefore
    cases hBefore
  · exact hHere

/- Once names are resolved, so are references below entries. -/
theorem referencesResolved_resolve
    {g : Grammar}
    {s : Session}
    (hTree : (Analysis.resolve g s).1.RegexTree)
    (hNames : s.namedTokens = [])
    (hManaged : s.options.userTokenManager = false)
    (hClean : (Analysis.resolve g s).2.Clean) :
    (Analysis.resolve g s).1.ReferencesResolved := by
  have hOptions : (Analysis.numbered g s).2.options =
      s.options := by
    have hChecked : (Analysis.called g s).MeetsEnd
        (Analysis.checked g s).2 :=
      meetsEnd_checkSections _ _
    rw [(Analysis.alters_numbered g s).field (·.options)
        fun _ => rfl, hChecked.field (·.options) fun _ => rfl,
      (Analysis.entersNames_called g s).field (·.options)
        fun _ => rfl]
  have hNamed := @Analysis.listed_of_named g s hNames
  rw [Analysis.resolve_eq, hOptions, if_neg (by simp [hManaged])]
    at hTree hClean ⊢
  have hNumbered : (Analysis.numbered g s).2.Clean :=
    (records_resolveReferences _ _).clean hClean
  rcases mem_listed_assignKinds hNumbered with
    ⟨hForms, hStays⟩
  change ∀ id, ((Analysis.numbered g s).1.regex id).form = _
    at hForms
  change ∀ id ∈ _, id ∈ listed (Analysis.numbered g s).1 ∨ _
    at hStays
  generalize Analysis.numbered g s = numbered
    at hTree hClean hNamed hForms hStays ⊢
  rcases numbered with ⟨g₁, s₁⟩
  dsimp only at hTree hClean hNamed hForms hStays ⊢
  have hKeeps := keeps_resolveReferences g₁ s₁
  have hParts : (resolveReferences g₁ s₁).1.PartOf =
      g₁.PartOf := by
    funext part whole
    unfold Grammar.PartOf
    rw [hKeeps.regexChildren]
  have hTree₁ : g₁.RegexTree := by
    unfold Grammar.RegexTree at hTree ⊢
    rwa [← hParts]
  rintro x hListed y ⟨node, name, hWithin, hReference⟩
  rw [listed_resolveReferences] at hListed
  rw [hParts] at hWithin
  rcases directed_resolveReferences hTree₁ hClean
    (List.mem_filter.mp hListed).1 hWithin name (some y)
    hReference with ⟨named, hGet, hSame⟩
  cases hSame
  rcases hNamed hGet with ⟨hEntry, hNot⟩
  have hNot₁ : isReference (g₁.regex y) = false := by
    unfold isReference at hNot ⊢
    rwa [hForms]
  rcases hStays y hEntry with hThere | ⟨image, hLiteral⟩
  · left
    rw [listed_resolveReferences]
    exact List.mem_filter.mpr ⟨hThere, by simp [hNot₁]⟩
  · right
    rw [← hForms] at hLiteral
    intro z
    apply Grammar.not_refers_of_isLiteral
    rcases hKeeps y with hForm | ⟨hIs, -⟩
    · exact ⟨image, hForm.trans hLiteral⟩
    · rw [hNot₁] at hIs
      cases hIs

end Descent
