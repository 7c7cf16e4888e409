import Descent.Proofs.Collections
import Descent.Proofs.Nesting
import Mathlib.Data.List.Basic

/-
  Reading the code of a decision back.

  A fragment is a statement when it falls into blocks with
  texts between them.  From the texts and the blocks the
  decision is read: a chain of tests, each with its block and
  with what comes after it, or a selection with its labels,
  its arms, each left by a break, and what is done otherwise.
  What stands in a block is not looked into but for the last
  one, which is read in the same way, down to a given depth.

  The code of a decision is read as this decision, so the code
  says what is asked for, what is done then, and in which
  order.  Only an amount without bound is read as the number
  that is written for it.

  Main declarations:
    * `Fragment.Level`
    * `Fragment.branches?`
    * `Decision.readTo`
    * `Decision.readTo_render`
    * `Decision.labelled_of_names`
-/

------------------------------------------------------------
-- Texts
------------------------------------------------------------

namespace Descent

namespace Text

/- A text whose line ends are written in one way. -/
def OneLineEnd
    (s : String) : Prop :=
  '\r' ∉ s.toList

instance (s : String) :
    Decidable (OneLineEnd s) :=
  inferInstanceAs (Decidable ('\r' ∉ s.toList))

theorem OneLineEnd.append
    {s s' : String}
    (hFirst : OneLineEnd s)
    (hSecond : OneLineEnd s') :
    OneLineEnd (s ++ s') := by
  unfold OneLineEnd at *
  rw [String.toList_append, List.mem_append, not_or]
  exact ⟨hFirst, hSecond⟩

/- What stands between two given texts. -/
def between?
    (before after : String)
    (cs : List Char) : Option (List Char) :=
  (cs.dropPrefix? before.toList).bind
    (·.dropSuffix? after.toList)

/- The number that a text starts with, and what follows it. -/
def leadingNumber?
    (cs : List Char) : Option (Nat × List Char) :=
  let digits := cs.takeWhile Char.isDigit
  if digits.isEmpty then
    none
  else
    some (Nat.ofDigitChars 10 digits 0,
      cs.dropWhile Char.isDigit)

/- The number that a text consists of. -/
def number?
    (cs : List Char) : Option Nat :=
  (leadingNumber? cs).bind fun (n, rest) =>
    if rest.isEmpty then some n else none

theorem between?_append
    (before after : String)
    (cs : List Char) :
    between? before after
        (before.toList ++ cs ++ after.toList) =
      some cs := by
  unfold between?
  rw [List.append_assoc,
    List.dropPrefix?_append_of_beq _ BEq.rfl,
    Option.bind_some, List.dropSuffix?_eq_some_iff]
  exact ⟨after.toList, rfl, BEq.rfl⟩

theorem oneLineEnd_toString
    (n : Nat) :
    OneLineEnd (toString n) := by
  intro hMem
  have hDigit := isDigit_of_mem_toString hMem
  cases hDigit

theorem leadingNumber?_toString
    (n : Nat)
    {rest : List Char}
    (hStop : rest.head?.all (!·.isDigit) = true) :
    leadingNumber? ((toString n).toList ++ rest) =
      some (n, rest) := by
  have hDigits : ∀ c ∈ (toString n).toList,
      c.isDigit = true :=
    fun c hMem => isDigit_of_mem_toString hMem
  have hTake : rest.takeWhile Char.isDigit = [] ∧
      rest.dropWhile Char.isDigit = rest := by
    cases rest with
    | nil => exact ⟨rfl, rfl⟩
    | cons c rest =>
        have hOther : c.isDigit = false := by
          simpa using hStop
        rw [List.takeWhile_cons, List.dropWhile_cons, hOther]
        exact ⟨rfl, rfl⟩
  unfold leadingNumber?
  rw [List.takeWhile_append_of_pos hDigits,
    List.dropWhile_append_of_pos hDigits, hTake.1, hTake.2,
    List.append_nil]
  have hSome : (toString n).toList.isEmpty = false := by
    rw [List.isEmpty_eq_false_iff]
    simp [Nat.toDigits_ne_nil]
  have hValue : Nat.ofDigitChars 10 (toString n).toList 0 =
      n := by
    simp [Nat.ofDigitChars_toDigits]
  dsimp only
  rw [hSome, hValue]
  rfl

theorem number?_toString
    (n : Nat) :
    number? (toString n).toList = some n := by
  have hNumber := @leadingNumber?_toString n [] rfl
  rw [List.append_nil] at hNumber
  unfold number?
  rw [hNumber]
  rfl

end Text

------------------------------------------------------------
-- Blocks
------------------------------------------------------------

/- A block, and the text before it. -/
structure Branch where
  head : List Char
  body : Fragment
  deriving Repr, DecidableEq

/- What has been read of a statement. -/
structure Outline where
  /- The blocks that are closed. -/
  branches : List Branch := []
  /- The text after them. -/
  text : List Char := []
  /- The block that is open: its depth, and what stands in it. -/
  inside : Option (Nat × Fragment) := none

/- Read one piece; outside of blocks there is only text. -/
def Outline.add
    (o : Outline)
    (p : Piece) : Option Outline :=
  match o.inside, p with
  | none, .text s =>
      some { o with text := o.text ++ s.toList }
  | none, .newline => some { o with text := o.text ++ ['\n'] }
  | none, .indent => some { o with inside := some (0, []) }
  | none, _ => none
  | some (0, f), .dedent =>
      some { branches := o.branches ++ [⟨o.text, f⟩] }
  | some (n + 1, f), .dedent =>
      some { o with inside := some (n, f ++ [.dedent]) }
  | some (n, f), .indent =>
      some { o with inside := some (n + 1, f ++ [.indent]) }
  | some (n, f), p =>
      some { o with inside := some (n, f ++ [p]) }

/- Read a fragment. -/
def Outline.addAll
    (o : Outline)
    (f : Fragment) : Option Outline :=
  f.foldlM add o

namespace Fragment

/- The blocks of a statement that ends with a brace. -/
def branches?
    (f : Fragment) : Option (List Branch) :=
  (Outline.addAll {} f).bind fun o =>
    if o.inside.isNone && o.text == "\n\x7d".toList then
      some o.branches
    else
      none

/- The indentation after a piece. -/
def levelPiece
    (n : Nat) : Piece → Option Nat
  | .indent => some (n + 1)
  | .dedent => if n = 0 then none else some (n - 1)
  | _ => some n

/- The indentation after a fragment. -/
def levels
    (n : Nat)
    (f : Fragment) : Option Nat :=
  f.foldlM levelPiece n

/- A fragment comes back to the indentation it starts with. -/
def Level
    (f : Fragment) : Prop :=
  ∀ n, levels n f = some n

theorem levels_append
    (n : Nat)
    (f f' : Fragment) :
    levels n (f ++ f') = (levels n f).bind (levels · f') := by
  unfold levels
  rw [List.foldlM_append]
  rfl

theorem level_nil :
    Level [] := by
  intro n
  rfl

theorem Level.append
    {f f' : Fragment}
    (hFirst : Level f)
    (hSecond : Level f') :
    Level (f ++ f') := by
  intro n
  rw [levels_append, hFirst, Option.bind_some, hSecond]

theorem Level.levels_append
    {f : Fragment}
    (hLevel : Level f)
    (n : Nat)
    (f' : Fragment) :
    levels n (f ++ f') = levels n f' := by
  rw [Fragment.levels_append, hLevel, Option.bind_some]

theorem Level.block
    {f : Fragment}
    (hLevel : Level f) :
    Level (indent ++ f ++ dedent) := by
  intro n
  rw [List.append_assoc]
  refine Eq.trans (hLevel.levels_append (n + 1) dedent) ?_
  rfl

theorem level_flatMap
    {α : Type}
    {items : List α}
    {f : α → Fragment}
    (hEach : ∀ a ∈ items, Level (f a)) :
    Level (items.flatMap f) := by
  induction items with
  | nil => exact level_nil
  | cons a items ih =>
      rw [List.flatMap_cons]
      exact (hEach a List.mem_cons_self).append
        (ih fun b hMem => hEach b (List.mem_cons_of_mem a hMem))

/- The pieces of a text, which neither indent nor start raw code. -/
theorem mem_splitLines
    {current cs : List Char}
    {p : Piece}
    (hMem : p ∈ splitLines current cs) :
    p = .newline ∨ ∃ s, p = .text s := by
  have hText : ∀ cs, p ∈ textPiece cs → ∃ s, p = .text s := by
    intro cs hMem
    unfold textPiece at hMem
    split at hMem
    · cases hMem
    · exact ⟨_, List.mem_singleton.mp hMem⟩
  fun_induction splitLines current cs with
  | case1 current => exact .inr (hText _ hMem)
  | case2 current rest ih =>
      rcases List.mem_append.mp hMem with hMem | hMem
      · exact .inr (hText _ hMem)
      · rcases List.mem_cons.mp hMem with rfl | hMem
        · exact .inl rfl
        · exact ih hMem
  | case3 current c rest _ hc ih =>
      rcases List.mem_append.mp hMem with hMem | hMem
      · exact .inr (hText _ hMem)
      · rcases List.mem_cons.mp hMem with rfl | hMem
        · exact .inl rfl
        · exact ih hMem
  | case4 current c rest _ hc ih => exact ih hMem

theorem level_ofText
    (s : String) :
    Level (ofText s) := by
  have hPieces : ∀ f : Fragment,
      (∀ p ∈ f, p = .newline ∨ ∃ s, p = .text s) →
        Level f := by
    intro f hAll n
    induction f with
    | nil => rfl
    | cons p f ih =>
        have hRest := ih fun p' hMem =>
          hAll p' (List.mem_cons_of_mem p hMem)
        rcases hAll p List.mem_cons_self with rfl | ⟨s, rfl⟩
        · exact hRest
        · exact hRest
  exact hPieces _ fun p hMem => mem_splitLines hMem

/- One line is one piece. -/
theorem splitLines_line
    (current : List Char)
    {cs : List Char}
    (hLine : ∀ c ∈ cs, c ≠ '\n' ∧ c ≠ '\r') :
    splitLines current cs =
      textPiece (cs.reverse ++ current) := by
  fun_induction splitLines current cs with
  | case1 current => rfl
  | case2 current rest ih =>
      exact absurd rfl (hLine '\r' List.mem_cons_self).2
  | case3 current c rest _ hc ih =>
      have hOther := hLine c List.mem_cons_self
      rw [Bool.or_eq_true, beq_iff_eq, beq_iff_eq] at hc
      rcases hc with rfl | rfl
      · exact absurd rfl hOther.1
      · exact absurd rfl hOther.2
  | case4 current c rest _ hc ih =>
      rw [ih fun c' hMem => hLine c' (List.mem_cons_of_mem c hMem),
        List.reverse_cons, List.append_assoc]
      rfl

theorem ofText_line
    {s : String}
    (hSome : s.toList ≠ [])
    (hLine : ∀ c ∈ s.toList, c ≠ '\n' ∧ c ≠ '\r') :
    ofText ("\n" ++ s) = [.newline, .text s] := by
  have hRest : splitLines [] s.toList = [.text s] := by
    rw [splitLines_line [] hLine, List.append_nil, textPiece,
      List.isEmpty_reverse, if_neg (by simpa using hSome),
      List.reverse_reverse, String.ofList_toList]
  unfold ofText
  rw [String.toList_append]
  change [] ++ .newline :: splitLines [] s.toList = _
  rw [hRest]
  rfl

/- Code is taken over as it stands. -/
theorem level_raw
    (code : String) :
    Level (raw code) := by
  intro n
  exact (level_ofText code).levels_append n [.rawEnd]

end Fragment

namespace Outline

theorem addAll_append
    (o : Outline)
    (f f' : Fragment) :
    o.addAll (f ++ f') = (o.addAll f).bind (·.addAll f') := by
  unfold addAll
  rw [List.foldlM_append]
  rfl

/- Within a block a fragment is taken over as it stands. -/
theorem addAll_inside
    (bs : List Branch)
    (text : List Char)
    {f : Fragment}
    {n m : Nat}
    (hLevels : Fragment.levels n f = some m)
    (before : Fragment) :
    addAll ⟨bs, text, some (n, before)⟩ f =
      some ⟨bs, text, some (m, before ++ f)⟩ := by
  induction f generalizing n before with
  | nil =>
      cases hLevels
      rw [List.append_nil]
      rfl
  | cons p f ih =>
      unfold Fragment.levels at hLevels
      rw [List.foldlM_cons] at hLevels
      have hStep : ∀ k, Fragment.levelPiece n p = some k →
          add ⟨bs, text, some (n, before)⟩ p =
            some ⟨bs, text, some (k, before ++ [p])⟩ := by
        intro k hLevel
        cases p with
        | indent =>
            cases hLevel
            cases n <;> rfl
        | dedent =>
            cases n with
            | zero => cases hLevel
            | succ n =>
                cases hLevel
                rfl
        | _ =>
            cases hLevel
            cases n <;> rfl
      cases hLevel : Fragment.levelPiece n p with
      | none =>
          rw [hLevel] at hLevels
          cases hLevels
      | some k =>
          rw [hLevel] at hLevels
          have hRest := ih hLevels (before ++ [p])
          rw [List.append_assoc] at hRest
          unfold addAll at hRest ⊢
          rw [List.foldlM_cons, hStep k hLevel]
          exact hRest

/- Outside of blocks a text is kept. -/
theorem addAll_ofText
    (bs : List Branch)
    (text : List Char)
    {s : String}
    (hPlain : Text.OneLineEnd s) :
    addAll ⟨bs, text, none⟩ (Fragment.ofText s) =
      some ⟨bs, text ++ s.toList, none⟩ := by
  have hPiece : ∀ text cs,
      addAll ⟨bs, text, none⟩ (Fragment.textPiece cs) =
        some ⟨bs, text ++ cs.reverse, none⟩ := by
    intro text cs
    unfold Fragment.textPiece
    split
    · next hEmpty =>
        rw [List.isEmpty_iff.mp hEmpty, List.reverse_nil,
          List.append_nil]
        rfl
    · change some (⟨bs, text ++ (String.ofList
        cs.reverse).toList, none⟩ : Outline) = _
      rw [String.toList_ofList]
  have hLines : ∀ current cs, '\r' ∉ cs → ∀ text,
      addAll ⟨bs, text, none⟩
          (Fragment.splitLines current cs) =
        some ⟨bs, text ++ (current.reverse ++ cs), none⟩ := by
    intro current cs
    fun_induction Fragment.splitLines current cs with
    | case1 current =>
        intro _ text
        rw [hPiece, List.append_nil]
    | case2 current rest ih =>
        intro hNot
        exact absurd List.mem_cons_self hNot
    | case3 current c rest _ hc ih =>
        intro hNot text
        rw [List.mem_cons, not_or] at hNot
        rw [Bool.or_eq_true, beq_iff_eq, beq_iff_eq] at hc
        rcases hc with rfl | rfl
        · rw [addAll_append, hPiece, Option.bind_some]
          refine (ih hNot.2 _).trans ?_
          simp
        · exact absurd rfl hNot.1
    | case4 current c rest _ hc ih =>
        intro hNot text
        rw [List.mem_cons, not_or] at hNot
        rw [ih hNot.2, List.reverse_cons, List.append_assoc]
        rfl
  exact hLines [] s.toList hPlain text

/- A text and the block after it are one branch. -/
theorem addAll_branch
    (bs : List Branch)
    {s : String}
    (hPlain : Text.OneLineEnd s)
    (f : Fragment) :
    addAll ⟨bs, [], none⟩
        (Fragment.ofText s ++ (Fragment.indent ++ f)) =
      addAll ⟨bs, s.toList, some (0, [])⟩ f := by
  rw [addAll_append, addAll_ofText bs [] hPlain]
  rfl

/- A block is closed after what stands in it. -/
theorem addAll_close
    (bs : List Branch)
    (text : List Char)
    (before : Fragment)
    {f : Fragment}
    (hLevel : Fragment.Level f)
    (f' : Fragment) :
    addAll ⟨bs, text, some (0, before)⟩
        (f ++ (Fragment.dedent ++ f')) =
      addAll ⟨bs ++ [⟨text, before ++ f⟩], [], none⟩ f' := by
  rw [addAll_append, addAll_inside bs text (hLevel 0)]
  rfl

end Outline

------------------------------------------------------------
-- Tests and labels
------------------------------------------------------------

/- The call of an entry point that a text consists of. -/
def Test.call?
    (cs : List Char) : Option Test := do
  let cs ← cs.dropPrefix? "jj_2_".toList
  let (entry, cs) ← Text.leadingNumber? cs
  let cs ← cs.dropPrefix? "(".toList
  let (amount, cs) ← Text.leadingNumber? cs
  if cs = ")".toList then
    return .scan entry amount none
  else
    let guard ← Text.between? ") && (" ")" cs
    return .scan entry amount (some (String.ofList guard))

/- The test that a text stands for. -/
def Test.ofText
    (cs : List Char) : Test :=
  (call? cs).getD (.guard (String.ofList cs))

namespace Decision

/- The kind that a label stands for. -/
def kindOf?
    (s : Session)
    (label : List Char) : Option Kind :=
  let named := (s.namesOfTokens.map (·.1)).find? fun k =>
    Assoc.get? k s.namesOfTokens == some (String.ofList label)
  named.or (Text.number? label)

/- The texts that ask for the kind of the next token. -/
def nextKindTexts : List String :=
  ["jj_nt->kind", "jj_nt.kind",
    "(jj_ntk==-1)?jj_ntk_f():jj_ntk"]

------------------------------------------------------------
-- Decisions
------------------------------------------------------------

/- The code of an arm, in a block that is left by a break. -/
def armCode?
    (f : Fragment) : Option Fragment :=
  (f.dropPrefix? [.text "\x7b"]).bind (·.dropSuffix?
    [.newline, .text "break;", .newline, .text "\x7d"])

/-
  The arms of a selection after some labels, and what is done
  otherwise.  A label with nothing after it goes on to the
  next one.
-/
def readArms
    (s : Session)
    (labels : List Kind) :
    List Branch → Option (List (List Kind × Fragment) × Fragment)
  | [] => none
  | ⟨head, body⟩ :: rest =>
      if head = "\ndefault:".toList then
        if labels.isEmpty && rest.isEmpty then
          some ([], body)
        else
          none
      else do
        let label ← Text.between? "\ncase " ":" head
        let labels := labels ++ [← kindOf? s label]
        if body.isEmpty then
          readArms s labels rest
        else
          let code ← armCode? body
          let (arms, otherwise) ← readArms s [] rest
          return ((labels, code) :: arms, otherwise)

/- The slot that is noted where errors are reported. -/
def readSlot
    (o : Options)
    (f : Fragment) : Option (Option Nat × Fragment) :=
  if o.errorReporting then
    match f with
    | .newline :: .text line :: rest => do
        let cs ← Text.between? "jj_la1[" "] = jj_gen;"
          line.toList
        return (some (← Text.number? cs), rest)
    | _ => none
  else
    some (none, f)

/- The tests after a first one, and what is done if all fail. -/
def readTests
    (next : Fragment → Option Decision) :
    List Branch → Option Decision
  | [] => none
  | ⟨head, body⟩ :: rest =>
      if head = "\n\x7d else \x7b".toList then
        if rest.isEmpty then next body else none
      else do
        let asked ← Text.between? "\n\x7d else if (" ") \x7b" head
        return .test (.ofText asked) body (← readTests next rest)

/- A statement by its blocks: tests, or a selection. -/
def readBranches
    (s : Session)
    (next : Fragment → Option Decision) :
    List Branch → Option Decision
  | [] => none
  | ⟨head, body⟩ :: rest =>
      match Text.between? "\nif (" ") \x7b" head with
      | some asked => do
          return .test (.ofText asked) body
            (← readTests next rest)
      | none => do
          let asked ← Text.between? "\nswitch (" ") \x7b" head
          if nextKindTexts.contains (String.ofList asked) &&
              body.isEmpty then
            let (arms, f) ← readArms s [] rest
            let (slot, f) ← readSlot s.options f
            return .select arms slot (← next f)
          else
            none

/-
  The decision that a fragment stands for, where statements
  are read down to a given depth, one in the last block of the
  other.
-/
def readTo
    (s : Session) : Nat → Fragment → Option Decision
  | 0, f => some (.run f)
  | depth + 1, f =>
      f.branches?.bind (readBranches s (readTo s depth))

/-
  How deep the statements of a decision are, on its own or in
  the branch that is taken when a test has failed.
-/
def depthIn : Bool → Decision → Nat
  | _, .run _ => 0
  | false, .test _ _ otherwise => depthIn true otherwise + 1
  | true, .test _ _ otherwise => depthIn true otherwise
  | _, .select _ _ otherwise => depthIn false otherwise + 1

/- How deep the statements of a decision are. -/
def depth
    (d : Decision) : Nat :=
  depthIn false d

/- An amount as the number that is written for it. -/
def writtenAmount
    (amount : Nat) : Nat :=
  if amount == unbounded then 2147483647 else amount

/- A test with its amount as it is written. -/
def writtenTest : Test → Test
  | .guard code => .guard code
  | .scan entry amount guard =>
      .scan entry (writtenAmount amount) guard

/- A decision with its amounts as they are written. -/
def asWritten : Decision → Decision
  | .run code => .run code
  | .test t code otherwise =>
      .test (writtenTest t) code otherwise.asWritten
  | .select arms slot otherwise =>
      .select arms slot otherwise.asWritten

/-
  A decision whose arms have labels, and whose selections note
  a slot where errors are reported.
-/
def Formed
    (o : Options) : Decision → Prop
  | .run _ => True
  | .test _ _ otherwise => otherwise.Formed o
  | .select arms slot otherwise =>
      (∀ arm ∈ arms, arm.1 ≠ []) ∧
        slot.isSome = o.errorReporting ∧ otherwise.Formed o

/-
  A guard that is written in one way, and not like the call of
  an entry point.
-/
structure PlainGuard
    (guard : String) : Prop where
  oneLineEnd : Text.OneLineEnd guard
  noCall : ¬ "jj_2_".toList <+: guard.toList

/- Labels tell kinds apart. -/
structure Labelled
    (s : Session) : Prop where
  apart : Function.Injective (kindName s)
  oneLineEnd : ∀ k, Text.OneLineEnd (kindName s k)

------------------------------------------------------------
-- Tests and labels are read back
------------------------------------------------------------

theorem amountText_eq
    (amount : Nat) :
    amountText amount = toString (writtenAmount amount) := by
  unfold amountText writtenAmount
  split
  · rfl
  · rfl

/- The call of an entry point and what follows it. -/
theorem call?_scan
    (entry amount : Nat)
    (rest : List Char) :
    Test.call? ("jj_2_".toList ++ ((toString entry).toList ++
        ("(".toList ++ ((toString amount).toList ++
          (")".toList ++ rest))))) =
      if rest = [] then
        some (.scan entry amount none)
      else
        (Text.between? ") && (" ")" (")".toList ++ rest)).map
          fun guard =>
            .scan entry amount (some (String.ofList guard)) := by
  have hEnd : ")".toList ++ rest = ")".toList ↔ rest = [] :=
    List.append_right_eq_self
  unfold Test.call?
  rw [List.dropPrefix?_append_of_beq _ BEq.rfl,
    Option.bind_eq_bind, Option.bind_some,
    Text.leadingNumber?_toString entry rfl,
    Option.bind_eq_bind, Option.bind_some]
  dsimp only
  rw [List.dropPrefix?_append_of_beq _ BEq.rfl,
    Option.bind_some,
    Text.leadingNumber?_toString amount rfl,
    Option.bind_some]
  dsimp only
  simp only [hEnd]
  split
  · rfl
  · rw [Option.map_eq_bind]
    rfl

/-
  Labels tell kinds apart if no two kinds have one name and no
  name is a number.
-/
theorem labelled_of_names
    {s : Session}
    (hApart : ∀ name k k',
      Assoc.get? k s.namesOfTokens = some name →
      Assoc.get? k' s.namesOfTokens = some name → k = k')
    (hPlain : ∀ k name,
      Assoc.get? k s.namesOfTokens = some name →
      Text.OneLineEnd name ∧ Text.number? name.toList = none) :
    Labelled s := by
  have hNamed : ∀ k name,
      Assoc.get? k s.namesOfTokens = some name →
      kindName s k = name := by
    intro k name hName
    unfold kindName
    rw [hName]
    rfl
  have hUnnamed : ∀ k,
      Assoc.get? k s.namesOfTokens = none →
      kindName s k = toString k := by
    intro k hNone
    unfold kindName
    rw [hNone]
    rfl
  -- A name is no number, so it is not that of another kind.
  have hOther : ∀ k name (k' : Kind),
      Assoc.get? k s.namesOfTokens = some name →
      name ≠ toString k' := by
    intro k name k' hName hNumber
    have hNone := (hPlain k name hName).2
    rw [hNumber, Text.number?_toString] at hNone
    cases hNone
  constructor
  · intro k k' hSame
    cases hFirst : Assoc.get? k s.namesOfTokens with
    | some name =>
        rw [hNamed k name hFirst] at hSame
        cases hSecond : Assoc.get? k' s.namesOfTokens with
        | some name' =>
            rw [hNamed k' name' hSecond] at hSame
            rw [← hSame] at hSecond
            exact hApart name k k' hFirst hSecond
        | none =>
            rw [hUnnamed k' hSecond] at hSame
            exact absurd hSame (hOther k name k' hFirst)
    | none =>
        rw [hUnnamed k hFirst] at hSame
        cases hSecond : Assoc.get? k' s.namesOfTokens with
        | some name' =>
            rw [hNamed k' name' hSecond] at hSame
            exact absurd hSame.symm (hOther k' name' k hSecond)
        | none =>
            rw [hUnnamed k' hSecond] at hSame
            have hRead := Text.number?_toString k
            rw [hSame, Text.number?_toString] at hRead
            exact (Option.some.inj hRead).symm
  · intro k
    cases hName : Assoc.get? k s.namesOfTokens with
    | some name =>
        rw [hNamed k name hName]
        exact (hPlain k name hName).1
    | none =>
        rw [hUnnamed k hName]
        exact Text.oneLineEnd_toString k

/- Tests are read as what they are written for. -/
theorem ofText_testText
    {t : Test}
    (hGuard : ∀ guard ∈ guardOf? t, PlainGuard guard) :
    Test.ofText (testText t).toList = writtenTest t := by
  unfold Test.ofText
  cases t with
  | guard code =>
      have hNone : Test.call? code.toList = none := by
        unfold Test.call?
        have hPrefix : code.toList.dropPrefix?
            "jj_2_".toList = none := by
          rw [Option.eq_none_iff_forall_ne_some]
          intro rest hSome
          rcases List.dropPrefix?_eq_some_iff.mp hSome with
            ⟨start, hSplit, hStart⟩
          rw [eq_of_beq hStart] at hSplit
          exact (hGuard code rfl).noCall ⟨rest, hSplit.symm⟩
        rw [hPrefix]
        rfl
      change (Test.call? code.toList).getD _ = _
      rw [hNone, String.ofList_toList]
      rfl
  | scan entry amount asked =>
      cases asked with
      | none =>
          have hCall := call?_scan entry (writtenAmount amount) []
          rw [if_pos rfl] at hCall
          have hText : (testText (.scan entry amount
              none)).toList =
              "jj_2_".toList ++ ((toString entry).toList ++
                ("(".toList ++
                  ((toString (writtenAmount amount)).toList ++
                    (")".toList ++ [])))) := by
            simp [testText, amountText_eq, toString]
          rw [hText, hCall]
          rfl
      | some guard =>
          have hCall := call?_scan entry (writtenAmount amount)
            (" && (".toList ++ guard.toList ++ ")".toList)
          have hText : (testText (.scan entry amount
              (some guard))).toList =
              "jj_2_".toList ++ ((toString entry).toList ++
                ("(".toList ++
                  ((toString (writtenAmount amount)).toList ++
                    (")".toList ++ (" && (".toList ++
                      guard.toList ++ ")".toList))))) := by
            simp [testText, amountText_eq, toString]
          have hBetween : Text.between? ") && (" ")"
              (")".toList ++ (" && (".toList ++ guard.toList ++
                ")".toList)) = some guard.toList :=
            Text.between?_append ") && (" ")" guard.toList
          rw [hText, hCall, if_neg (by simp), hBetween,
            Option.map_some, String.ofList_toList]
          rfl

theorem kindOf?_kindName
    {s : Session}
    (hLabelled : Labelled s)
    (k : Kind) :
    kindOf? s (kindName s k).toList = some k := by
  have hName : kindName s k =
      (Assoc.get? k s.namesOfTokens).getD (toString k) := rfl
  have hSame : ∀ k', Assoc.get? k' s.namesOfTokens =
      some (kindName s k) → k' = k := by
    intro k' hGet
    apply hLabelled.apart
    unfold kindName at hGet ⊢
    rw [hGet]
    rfl
  unfold kindOf?
  rw [String.ofList_toList]
  cases hFind : (s.namesOfTokens.map (·.1)).find? fun k' =>
      Assoc.get? k' s.namesOfTokens == some (kindName s k) with
  | some k' =>
      have hGet := List.find?_some hFind
      rw [hSame k' (eq_of_beq hGet)]
      rfl
  | none =>
      have hNone : Assoc.get? k s.namesOfTokens = none := by
        rw [Option.eq_none_iff_forall_ne_some]
        intro name hGet
        have hMem : k ∈ s.namesOfTokens.map (·.1) :=
          List.mem_map_of_mem (Assoc.mem_of_get? hGet)
        have hNot := List.find?_eq_none.mp hFind k hMem
        rw [hGet] at hName
        apply hNot
        rw [hGet, hName]
        exact BEq.rfl
      rw [hName, hNone]
      exact Text.number?_toString k

------------------------------------------------------------
-- Decisions stand in blocks
------------------------------------------------------------

open Fragment (ofText indent dedent levels Level)

theorem level_renderSlot
    (slot : Option Nat) :
    Level (renderSlot slot) := by
  cases slot with
  | none => exact Fragment.level_nil
  | some n => exact Fragment.level_ofText _

/- Between the labels of an arm no block is left open. -/
theorem levels_arms
    {s : Session}
    {arms : List (List Kind × Fragment)}
    (hCodes : ∀ arm ∈ arms, Level arm.2)
    (n : Nat)
    (f : Fragment) :
    levels (n + 1) (arms.flatMap (renderArm s) ++ f) =
      levels (n + 1) f := by
  have hLabels : ∀ kinds : List Kind, ∀ f,
      levels (n + 1) ((kinds.flatMap fun k => dedent ++
        ofText s!"\ncase {kindName s k}:" ++ indent) ++ f) =
          levels (n + 1) f := by
    intro kinds f
    induction kinds with
    | nil => rfl
    | cons k kinds ih =>
        rw [List.flatMap_cons]
        simp only [List.append_assoc] at ih ⊢
        refine Eq.trans ((Fragment.level_ofText
          s!"\ncase {kindName s k}:").levels_append n _) ?_
        exact ih
  induction arms with
  | nil => rfl
  | cons arm arms ih =>
      have hRest := ih fun arm' hMem =>
        hCodes arm' (List.mem_cons_of_mem arm hMem)
      have hCode := hCodes arm List.mem_cons_self
      rw [List.flatMap_cons, renderArm]
      simp only [List.append_assoc] at hLabels ⊢
      rw [hLabels,
        (Fragment.level_ofText _).levels_append,
        hCode.levels_append,
        (Fragment.level_ofText _).levels_append]
      exact hRest

/-
  A decision comes back to where it starts, on its own or in
  the block of a test that has failed.
-/
theorem levels_renderIn
    {s : Session}
    {d : Decision}
    {Q : String → Prop}
    (hMade : d.MadeOf Level Q)
    (n : Nat) :
    levels n (renderIn s false d) = some n ∧
      levels (n + 1) (renderIn s true d) = some (n + 1) := by
  have hText := Fragment.level_ofText
  induction d generalizing n with
  | run code =>
      refine ⟨hMade n, ?_⟩
      simp only [renderIn, elseOpening, if_true,
        List.append_assoc]
      refine Eq.trans ((hText _).levels_append n _) ?_
      exact hMade (n + 1)
  | test t code otherwise ih =>
      rcases hMade with ⟨-, hCode, hRest⟩
      have hInside := (ih hRest n).2
      have hBlock : ∀ f, levels n (ofText f ++ (indent ++
          (code ++ renderIn s true otherwise))) =
            some (n + 1) := by
        intro f
        rw [(hText f).levels_append]
        refine Eq.trans (hCode.levels_append (n + 1) _) ?_
        exact hInside
      constructor
      · simp only [renderIn, closing, List.append_assoc]
        rw [(hText _).levels_append]
        refine Eq.trans (hCode.levels_append (n + 1) _) ?_
        rw [Fragment.levels_append, hInside]
        exact hText "\n\x7d" n
      · simp only [renderIn, List.append_assoc]
        exact hBlock _
  | select arms slot otherwise ih =>
      rcases hMade with ⟨hCodes, hRest⟩
      have hOwn : ∀ n, levels n (ofText
          s!"\nswitch ({nextKindText s.options}) \x7b" ++
            (indent ++ (arms.flatMap (renderArm s) ++
              (dedent ++ (ofText "\ndefault:" ++ (indent ++
                (renderSlot slot ++ (renderIn s false otherwise ++
                  closing)))))))) = some n := by
        intro n
        rw [(hText _).levels_append]
        refine Eq.trans (levels_arms hCodes n _) ?_
        refine Eq.trans ((hText _).levels_append n _) ?_
        refine Eq.trans
          ((level_renderSlot slot).levels_append (n + 1) _) ?_
        rw [Fragment.levels_append, (ih hRest (n + 1)).1]
        exact hText "\n\x7d" n
      constructor
      · simp only [renderIn, List.append_assoc]
        exact hOwn n
      · simp only [renderIn, elseOpening, if_true,
          List.append_assoc]
        refine Eq.trans ((hText _).levels_append n _) ?_
        exact hOwn (n + 1)

/- The code of a decision is level. -/
theorem level_render
    {s : Session}
    {d : Decision}
    {Q : String → Prop}
    (hMade : d.MadeOf Level Q) :
    Level (d.render s) :=
  fun n => (levels_renderIn hMade n).1

------------------------------------------------------------
-- The blocks of a decision
------------------------------------------------------------

/- A label of an arm. -/
def labelText
    (s : Session)
    (k : Kind) : String :=
  s!"\ncase {kindName s k}:"

/- What stands in the block of the last label of an arm. -/
def armBody
    (code : Fragment) : Fragment :=
  ofText "\x7b" ++ code ++ ofText "\nbreak;\n\x7d"

/- The blocks of an arm: one for each label, the last with its code. -/
def armBranches
    (s : Session)
    (code : Fragment) : List Kind → List Branch
  | [] => []
  | [k] => [⟨(labelText s k).toList, armBody code⟩]
  | k :: ks =>
      ⟨(labelText s k).toList, []⟩ :: armBranches s code ks

/- The blocks for when a test has failed. -/
def branchesAfter
    (s : Session) : Decision → List Branch
  | .test t code otherwise =>
      ⟨s!"\n\x7d else if ({testText t}) \x7b".toList, code⟩ ::
        branchesAfter s otherwise
  | d => [⟨"\n\x7d else \x7b".toList, renderIn s false d⟩]

theorem oneLineEnd_labelText
    {s : Session}
    (hLabelled : Labelled s)
    (k : Kind) :
    Text.OneLineEnd (labelText s k) := by
  have hName := hLabelled.oneLineEnd k
  exact (Text.OneLineEnd.append (by decide) hName).append
    (by decide)

theorem oneLineEnd_testText
    {t : Test}
    (hGuard : ∀ guard ∈ guardOf? t, PlainGuard guard) :
    Text.OneLineEnd (testText t) := by
  have hCall : ∀ entry amount : Nat, Text.OneLineEnd
      ("jj_2_" ++ toString entry ++ "(" ++
        amountText amount) := by
    intro entry amount
    have hEntry := Text.oneLineEnd_toString entry
    have hAmount :=
      Text.oneLineEnd_toString (writtenAmount amount)
    rw [amountText_eq]
    exact ((Text.OneLineEnd.append (by decide) hEntry).append
      (by decide)).append hAmount
  cases t with
  | guard code => exact (hGuard code rfl).oneLineEnd
  | scan entry amount asked =>
      cases asked with
      | none => exact (hCall entry amount).append (by decide)
      | some guard =>
          have hPlain := (hGuard guard rfl).oneLineEnd
          exact (((hCall entry amount).append
            (by decide)).append hPlain).append (by decide)

theorem oneLineEnd_switch
    (o : Options) :
    Text.OneLineEnd
      s!"\nswitch ({nextKindText o}) \x7b" := by
  have hAsked : Text.OneLineEnd (nextKindText o) := by
    unfold nextKindText
    split
    · split
      · decide
      · decide
    · decide
  exact (Text.OneLineEnd.append (by decide) hAsked).append
    (by decide)

theorem addAll_arm
    {s : Session}
    (hLabelled : Labelled s)
    {code : Fragment}
    (hCode : Level code)
    {rest f : Fragment}
    {after : List Branch}
    (hRest : ∀ bs text before,
      Outline.addAll ⟨bs, text, some (0, before)⟩ rest =
        Outline.addAll
          ⟨bs ++ ⟨text, before⟩ :: after, [], none⟩ f)
    {kinds : List Kind}
    (hSome : kinds ≠ [])
    (bs : List Branch)
    (text : List Char)
    (before : Fragment) :
    Outline.addAll ⟨bs, text, some (0, before)⟩
        (renderArm s (kinds, code) ++ rest) =
      Outline.addAll
        ⟨bs ++ ⟨text, before⟩ ::
          (armBranches s code kinds ++ after), [], none⟩ f := by
  have hBody : Level (armBody code) :=
    ((Fragment.level_ofText _).append hCode).append
      (Fragment.level_ofText _)
  have hLabel : ∀ bs text before k f,
      Outline.addAll ⟨bs, text, some (0, before)⟩
          (dedent ++ (ofText (labelText s k) ++
            (indent ++ f))) =
        Outline.addAll ⟨bs ++ [⟨text, before⟩],
          (labelText s k).toList, some (0, [])⟩ f := by
    intro bs text before k f
    refine (Outline.addAll_close bs text before
      Fragment.level_nil _).trans ?_
    rw [List.append_nil]
    exact Outline.addAll_branch _
      (oneLineEnd_labelText hLabelled k) f
  have hArm : renderArm s (kinds, code) =
      (kinds.flatMap fun k =>
        dedent ++ ofText (labelText s k) ++ indent) ++
          armBody code := by
    unfold renderArm armBody labelText
    simp only [List.append_assoc]
  rw [hArm]
  clear hArm
  induction kinds generalizing bs text before with
  | nil => exact absurd rfl hSome
  | cons k kinds ih =>
      rw [List.flatMap_cons]
      simp only [List.append_assoc] at ih ⊢
      rw [hLabel]
      cases kinds with
      | nil =>
          rw [List.flatMap_nil, List.nil_append,
            Outline.addAll_append,
            Outline.addAll_inside _ _ (hBody 0),
            Option.bind_some, List.nil_append, hRest]
          simp [armBranches]
      | cons k' kinds =>
          rw [ih (List.cons_ne_nil _ _)]
          simp [armBranches]

theorem addAll_arms
    {s : Session}
    (hLabelled : Labelled s)
    {arms : List (List Kind × Fragment)}
    (hLabels : ∀ arm ∈ arms, arm.1 ≠ [])
    (hCodes : ∀ arm ∈ arms, Level arm.2)
    (f : Fragment)
    (bs : List Branch)
    (text : List Char)
    (before : Fragment) :
    Outline.addAll ⟨bs, text, some (0, before)⟩
        (arms.flatMap (renderArm s) ++ (dedent ++ f)) =
      Outline.addAll
        ⟨bs ++ ⟨text, before⟩ ::
          arms.flatMap (fun arm => armBranches s arm.2 arm.1),
          [], none⟩ f := by
  induction arms generalizing bs text before with
  | nil =>
      refine (Outline.addAll_close bs text before
        Fragment.level_nil f).trans ?_
      rw [List.append_nil]
      rfl
  | cons arm arms ih =>
      rw [List.flatMap_cons, List.append_assoc]
      refine addAll_arm hLabelled
        (hCodes arm List.mem_cons_self) ?_
        (hLabels arm List.mem_cons_self) bs text before
      exact ih
        (fun arm' hMem => hLabels arm' (List.mem_cons_of_mem arm hMem))
        (fun arm' hMem => hCodes arm' (List.mem_cons_of_mem arm hMem))

/- The blocks of a selection. -/
def selectBranches
    (s : Session)
    (arms : List (List Kind × Fragment))
    (slot : Option Nat)
    (otherwise : Decision) : List Branch :=
  ⟨s!"\nswitch ({nextKindText s.options}) \x7b".toList, []⟩ ::
    (arms.flatMap (fun arm => armBranches s arm.2 arm.1) ++
      [⟨"\ndefault:".toList,
        renderSlot slot ++ renderIn s false otherwise⟩])

/- After a test that has failed a selection is on its own. -/
theorem renderIn_select
    (s : Session)
    (arms : List (List Kind × Fragment))
    (slot : Option Nat)
    (otherwise : Decision) :
    renderIn s true (.select arms slot otherwise) =
      elseOpening ++
        renderIn s false (.select arms slot otherwise) := by
  simp only [renderIn, if_true, Bool.false_eq_true, if_false,
    List.nil_append, List.append_assoc]

theorem addAll_closing
    (bs : List Branch) :
    Outline.addAll ⟨bs, [], none⟩ (ofText "\n\x7d") =
      some ⟨bs, "\n\x7d".toList, none⟩ :=
  Outline.addAll_ofText bs [] (by decide)

/- The last block, for when all tests have failed. -/
theorem addAll_else
    {code : Fragment}
    (hCode : Level code)
    (bs : List Branch)
    (text : List Char)
    (before : Fragment) :
    Outline.addAll ⟨bs, text, some (0, before)⟩
        (elseOpening ++ (code ++ closing)) =
      some ⟨bs ++ [⟨text, before⟩,
        ⟨"\n\x7d else \x7b".toList, code⟩],
          "\n\x7d".toList, none⟩ := by
  simp only [elseOpening, closing, List.append_assoc]
  refine (Outline.addAll_close bs text before
    Fragment.level_nil _).trans ?_
  rw [List.append_nil, Outline.addAll_branch _ (by decide),
    Outline.addAll_close _ _ _ hCode, addAll_closing]
  simp

/-
  After the block of a test come those for when the test has
  failed.
-/
theorem addAll_after
    {s : Session}
    {d : Decision}
    (hMade : d.MadeOf Level PlainGuard)
    (bs : List Branch)
    (text : List Char)
    (before : Fragment) :
    Outline.addAll ⟨bs, text, some (0, before)⟩
        (renderIn s true d ++ closing) =
      some ⟨bs ++ ⟨text, before⟩ :: branchesAfter s d,
        "\n\x7d".toList, none⟩ := by
  induction d generalizing bs text before with
  | run code =>
      simp only [renderIn, if_true, List.append_assoc]
      exact addAll_else hMade bs text before
  | test t code otherwise ih =>
      rcases hMade with ⟨hGuard, hCode, hRest⟩
      have hText : Text.OneLineEnd
          s!"\n\x7d else if ({testText t}) \x7b" :=
        (Text.OneLineEnd.append (by decide)
          (oneLineEnd_testText hGuard)).append (by decide)
      simp only [renderIn, List.append_assoc]
      refine (Outline.addAll_close bs text before
        Fragment.level_nil _).trans ?_
      rw [List.append_nil, Outline.addAll_branch _ hText,
        Outline.addAll_append,
        Outline.addAll_inside _ _ (hCode 0), Option.bind_some,
        List.nil_append, ih hRest, List.append_assoc]
      rfl
  | select arms slot otherwise ih =>
      have hLevel := level_render (s := s) hMade
      rw [renderIn_select, List.append_assoc]
      exact addAll_else hLevel bs text before

/- The blocks of a statement that starts with a test. -/
theorem branches?_test
    {s : Session}
    {t : Test}
    {code : Fragment}
    {otherwise : Decision}
    (hMade : (Decision.test t code otherwise).MadeOf Level
      PlainGuard) :
    Fragment.branches?
        (renderIn s false (.test t code otherwise)) =
      some (⟨s!"\nif ({testText t}) \x7b".toList, code⟩ ::
        branchesAfter s otherwise) := by
  rcases hMade with ⟨hGuard, hCode, hRest⟩
  have hText : Text.OneLineEnd
      s!"\nif ({testText t}) \x7b" :=
    (Text.OneLineEnd.append (by decide)
      (oneLineEnd_testText hGuard)).append (by decide)
  have hAll : Outline.addAll {}
      (renderIn s false (.test t code otherwise)) =
        some ⟨⟨s!"\nif ({testText t}) \x7b".toList, code⟩ ::
          branchesAfter s otherwise, "\n\x7d".toList, none⟩ := by
    simp only [renderIn, List.append_assoc]
    rw [Outline.addAll_branch [] hText, Outline.addAll_append,
      Outline.addAll_inside _ _ (hCode 0), Option.bind_some,
      List.nil_append, addAll_after hRest]
    rfl
  unfold Fragment.branches?
  rw [hAll]
  rfl

/- The blocks of a selection. -/
theorem branches?_select
    {s : Session}
    (hLabelled : Labelled s)
    {arms : List (List Kind × Fragment)}
    {slot : Option Nat}
    {otherwise : Decision}
    (hLabels : ∀ arm ∈ arms, arm.1 ≠ [])
    (hMade : (Decision.select arms slot otherwise).MadeOf Level
      PlainGuard) :
    Fragment.branches?
        (renderIn s false (.select arms slot otherwise)) =
      some (selectBranches s arms slot otherwise) := by
  rcases hMade with ⟨hCodes, hRest⟩
  have hLast : Level
      (renderSlot slot ++ renderIn s false otherwise) :=
    (level_renderSlot slot).append (level_render hRest)
  have hAll : Outline.addAll {}
      (renderIn s false (.select arms slot otherwise)) =
        some ⟨selectBranches s arms slot otherwise,
          "\n\x7d".toList, none⟩ := by
    have hRender : renderIn s false
        (.select arms slot otherwise) =
          ofText s!"\nswitch ({nextKindText s.options}) \x7b" ++
            (indent ++ (arms.flatMap (renderArm s) ++
              (dedent ++ (ofText "\ndefault:" ++ (indent ++
                ((renderSlot slot ++ renderIn s false otherwise) ++
                  (dedent ++ ofText "\n\x7d"))))))) := by
      simp only [renderIn, closing, Bool.false_eq_true,
        if_false, List.nil_append, List.append_assoc]
    rw [hRender,
      Outline.addAll_branch [] (oneLineEnd_switch s.options),
      addAll_arms hLabelled hLabels hCodes,
      Outline.addAll_branch _ (by decide),
      Outline.addAll_close _ _ _ hLast, addAll_closing,
      selectBranches]
    simp
  unfold Fragment.branches?
  rw [hAll]
  rfl

------------------------------------------------------------
-- Decisions are read back
------------------------------------------------------------

theorem armCode?_armBody
    (code : Fragment) :
    armCode? (armBody code) = some code := by
  have hBody : armBody code =
      [.text "\x7b"] ++ (code ++
        [.newline, .text "break;", .newline, .text "\x7d"]) :=
    List.append_assoc _ _ _
  unfold armCode?
  rw [hBody, List.dropPrefix?_append_of_beq _ BEq.rfl,
    Option.bind_some, List.dropSuffix?_eq_some_iff]
  exact ⟨_, rfl, BEq.rfl⟩

/- A label is read, and the blocks after it with it. -/
theorem readArms_label
    {s : Session}
    (hLabelled : Labelled s)
    (labels : List Kind)
    (k : Kind)
    (body : Fragment)
    (rest : List Branch) :
    readArms s labels
        (⟨(labelText s k).toList, body⟩ :: rest) =
      if body.isEmpty then
        readArms s (labels ++ [k]) rest
      else
        (armCode? body).bind fun code =>
          (readArms s [] rest).map fun read =>
            ((labels ++ [k], code) :: read.1, read.2) := by
  have hText : (labelText s k).toList =
      "\ncase ".toList ++ (kindName s k).toList ++
        ":".toList := by
    simp [labelText, toString]
  have hCase : (labelText s k).toList ≠
      "\ndefault:".toList := by
    rw [hText]
    intro hSame
    have hSecond := congrArg (·[1]?) hSame
    cases hSecond
  have hBetween : Text.between? "\ncase " ":"
      (labelText s k).toList = some (kindName s k).toList := by
    rw [hText]
    exact Text.between?_append _ _ _
  rw [readArms, if_neg hCase, hBetween, Option.bind_eq_bind,
    Option.bind_some, kindOf?_kindName hLabelled,
    Option.bind_eq_bind, Option.bind_some]
  split
  · rfl
  · cases armCode? body with
    | none => rfl
    | some code => cases readArms s [] rest <;> rfl

/- An arm is read with all its labels. -/
theorem readArms_arm
    {s : Session}
    (hLabelled : Labelled s)
    (code : Fragment)
    {kinds : List Kind}
    (hSome : kinds ≠ [])
    (labels : List Kind)
    (rest : List Branch) :
    readArms s labels (armBranches s code kinds ++ rest) =
      (readArms s [] rest).map fun read =>
        ((labels ++ kinds, code) :: read.1, read.2) := by
  induction kinds generalizing labels with
  | nil => exact absurd rfl hSome
  | cons k kinds ih =>
      cases kinds with
      | nil =>
          refine (readArms_label hLabelled labels k _
            rest).trans ?_
          rw [armCode?_armBody]
          rfl
      | cons k' kinds =>
          refine (readArms_label hLabelled labels k _ _).trans ?_
          refine (ih (List.cons_ne_nil _ _) _).trans ?_
          rw [List.append_assoc]
          rfl

theorem readArms_arms
    {s : Session}
    (hLabelled : Labelled s)
    {arms : List (List Kind × Fragment)}
    (hLabels : ∀ arm ∈ arms, arm.1 ≠ [])
    (f : Fragment) :
    readArms s []
        (arms.flatMap (fun arm => armBranches s arm.2 arm.1) ++
          [⟨"\ndefault:".toList, f⟩]) =
      some (arms, f) := by
  induction arms with
  | nil => rfl
  | cons arm arms ih =>
      rw [List.flatMap_cons, List.append_assoc,
        readArms_arm hLabelled arm.2
          (hLabels arm List.mem_cons_self),
        ih fun arm' hMem =>
          hLabels arm' (List.mem_cons_of_mem arm hMem)]
      rfl

/- The statement that notes a slot. -/
def slotText
    (n : Nat) : String :=
  "jj_la1[" ++ toString n ++ "] = jj_gen;"

theorem toList_slotText
    (n : Nat) :
    (slotText n).toList = "jj_la1[".toList ++
      (toString n).toList ++ "] = jj_gen;".toList := by
  unfold slotText
  rw [String.toList_append, String.toList_append]

/- A slot is noted in one line. -/
theorem renderSlot_some
    (n : Nat) :
    renderSlot (some n) = [.newline, .text (slotText n)] := by
  have hAway : ∀ e : Char, e.isDigit = false →
      e ∉ "jj_la1[".toList → e ∉ "] = jj_gen;".toList →
      e ∉ (slotText n).toList := by
    intro e hNot hBefore hAfter hMem
    rw [toList_slotText, List.mem_append, List.mem_append]
      at hMem
    rcases hMem with (hMem | hMem) | hMem
    · exact hBefore hMem
    · rw [Text.isDigit_of_mem_toString hMem] at hNot
      cases hNot
    · exact hAfter hMem
  have hLine : ∀ c ∈ (slotText n).toList,
      c ≠ '\n' ∧ c ≠ '\r' := by
    intro c hMem
    constructor
    · rintro rfl
      exact hAway '\n' rfl (by decide) (by decide) hMem
    · rintro rfl
      exact hAway '\r' rfl (by decide) (by decide) hMem
  have hSome : (slotText n).toList ≠ [] := by
    rw [toList_slotText]
    exact List.cons_ne_nil _ _
  refine Eq.trans (congrArg ofText ?_)
    (Fragment.ofText_line hSome hLine)
  simp [slotText, toString, ← String.toList_inj]

theorem readSlot_renderSlot
    {o : Options}
    {slot : Option Nat}
    (hSlot : slot.isSome = o.errorReporting)
    (f : Fragment) :
    readSlot o (renderSlot slot ++ f) = some (slot, f) := by
  unfold readSlot
  rw [← hSlot]
  cases slot with
  | none => rfl
  | some n =>
      have hBetween : Text.between? "jj_la1[" "] = jj_gen;"
          (slotText n).toList = some (toString n).toList := by
        rw [toList_slotText]
        exact Text.between?_append _ _ _
      rw [renderSlot_some, Option.isSome_some, if_pos rfl]
      simp only [List.cons_append, List.nil_append]
      rw [hBetween, Option.bind_eq_bind, Option.bind_some,
        Text.number?_toString]
      rfl

/- A test after others is read, and what is left with it. -/
theorem readTests_test
    {t : Test}
    (hGuard : ∀ guard ∈ guardOf? t, PlainGuard guard)
    (next : Fragment → Option Decision)
    (code : Fragment)
    (rest : List Branch) :
    readTests next
        (⟨s!"\n\x7d else if ({testText t}) \x7b".toList,
          code⟩ :: rest) =
      (readTests next rest).map
        (.test (writtenTest t) code) := by
  have hText : s!"\n\x7d else if ({testText t}) \x7b".toList =
      "\n\x7d else if (".toList ++ (testText t).toList ++
        ") \x7b".toList := by
    simp [toString]
  have hOther : s!"\n\x7d else if ({testText t}) \x7b".toList ≠
      "\n\x7d else \x7b".toList := by
    rw [hText]
    intro hSame
    have hBrace := congrArg (·[8]?) hSame
    cases hBrace
  rw [readTests, if_neg hOther, hText, Text.between?_append,
    Option.bind_eq_bind, Option.bind_some,
    ofText_testText hGuard]
  cases readTests next rest <;> rfl

theorem readBranches_test
    {t : Test}
    (hGuard : ∀ guard ∈ guardOf? t, PlainGuard guard)
    (s : Session)
    (next : Fragment → Option Decision)
    (code : Fragment)
    (rest : List Branch) :
    readBranches s next
        (⟨s!"\nif ({testText t}) \x7b".toList, code⟩ ::
          rest) =
      (readTests next rest).map
        (.test (writtenTest t) code) := by
  have hText : s!"\nif ({testText t}) \x7b".toList =
      "\nif (".toList ++ (testText t).toList ++
        ") \x7b".toList := by
    simp [toString]
  rw [readBranches, hText, Text.between?_append]
  dsimp only
  rw [ofText_testText hGuard]
  cases readTests next rest <;> rfl

theorem nextKindText_mem
    (o : Options) :
    nextKindTexts.contains (nextKindText o) = true := by
  unfold nextKindText
  split
  · split
    · decide
    · decide
  · decide

theorem readBranches_select
    {s : Session}
    (hLabelled : Labelled s)
    {arms : List (List Kind × Fragment)}
    {slot : Option Nat}
    (hLabels : ∀ arm ∈ arms, arm.1 ≠ [])
    (hSlot : slot.isSome = s.options.errorReporting)
    (next : Fragment → Option Decision)
    (otherwise : Decision) :
    readBranches s next (selectBranches s arms slot otherwise) =
      (next (renderIn s false otherwise)).map
        (.select arms slot) := by
  have hText :
      s!"\nswitch ({nextKindText s.options}) \x7b".toList =
        "\nswitch (".toList ++
          (nextKindText s.options).toList ++
            ") \x7b".toList := by
    simp [toString]
  have hOther : Text.between? "\nif (" ") \x7b"
      s!"\nswitch ({nextKindText s.options}) \x7b".toList =
        none := by
    rw [hText]
    rfl
  rw [selectBranches, readBranches, hOther]
  dsimp only
  rw [hText, Text.between?_append, Option.bind_eq_bind,
    Option.bind_some, String.ofList_toList, nextKindText_mem,
    readArms_arms hLabelled hLabels]
  dsimp only [Bool.true_and, List.isEmpty_nil, if_true,
    Option.bind_eq_bind, Option.bind_some]
  rw [readSlot_renderSlot hSlot]
  cases hNext : next (renderIn s false otherwise) with
  | none => simp [hNext]
  | some d => simp [hNext]

/-
  The code of a decision is read as this decision, on its own
  or in the branch that is taken when a test has failed.
-/
theorem readTo_renderIn
    {s : Session}
    (hLabelled : Labelled s)
    {d : Decision}
    (hFormed : d.Formed s.options)
    (hMade : d.MadeOf Level PlainGuard) :
    readTo s (depthIn false d) (renderIn s false d) =
        some d.asWritten ∧
      readTests (readTo s (depthIn true d))
          (branchesAfter s d) =
        some d.asWritten := by
  induction d with
  | run code => exact ⟨rfl, rfl⟩
  | test t code otherwise ih =>
      have hRest := (ih hFormed hMade.2.2).2
      constructor
      · rw [depthIn, readTo, branches?_test hMade,
          Option.bind_some, readBranches_test hMade.1, hRest]
        rfl
      · rw [depthIn, branchesAfter, readTests_test hMade.1,
          hRest]
        rfl
  | select arms slot otherwise ih =>
      rcases hFormed with ⟨hLabels, hSlot, hFormed⟩
      have hRest := (ih hFormed hMade.2).1
      have hOwn : readTo s (depthIn false otherwise + 1)
          (renderIn s false (.select arms slot otherwise)) =
            some (asWritten (.select arms slot otherwise)) := by
        rw [readTo, branches?_select hLabelled hLabels hMade,
          Option.bind_some,
          readBranches_select hLabelled hLabels hSlot, hRest]
        rfl
      exact ⟨hOwn, hOwn⟩

/- The code of a decision is read as this decision. -/
theorem readTo_render
    {s : Session}
    (hLabelled : Labelled s)
    {d : Decision}
    (hFormed : d.Formed s.options)
    (hMade : d.MadeOf Level PlainGuard) :
    readTo s d.depth (d.render s) = some d.asWritten :=
  (readTo_renderIn hLabelled hFormed hMade).1

end Decision

end Descent
