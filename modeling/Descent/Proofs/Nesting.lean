import Descent.Parser.Decision
import Mathlib.Data.List.Basic

/-
  Generated code whose blocks are all closed.

  A fragment is read from left to right with the blocks that
  are open: those in braces, and those that are indented.  It
  is closed when reading it comes back to the blocks that were
  open before, whatever they were, so that it closes nothing
  it has not opened.  The code of a decision is closed if the
  pieces of code and the texts it is made of are.

  Main declarations:
    * `Fragment.read`
    * `Fragment.Closed`
    * `Decision.closed_render`
-/

------------------------------------------------------------
-- Open blocks
------------------------------------------------------------

namespace Descent

/- What can be open in generated code. -/
inductive Block where
  | braces
  | indented
  deriving Repr, DecidableEq

/- The open blocks after a character. -/
def Block.readChar
    (stack : List Block)
    (c : Char) : Option (List Block) :=
  if c = '\x7b' then
    some (.braces :: stack)
  else if c = '\x7d' then
    match stack with
    | .braces :: rest => some rest
    | _ => none
  else
    some stack

/- The open blocks after a text. -/
def Block.readText
    (stack : List Block)
    (s : String) : Option (List Block) :=
  s.toList.foldlM readChar stack

/- A text that leaves the open blocks as they are. -/
def Block.Keeps
    (s : String) : Prop :=
  ∀ stack, Block.readText stack s = some stack

namespace Fragment

/- The open blocks after a piece. -/
def readPiece
    (stack : List Block) : Piece → Option (List Block)
  | .text s => Block.readText stack s
  | .indent => some (.indented :: stack)
  | .dedent =>
      match stack with
      | .indented :: rest => some rest
      | _ => none
  | .newline => some stack
  | .rawStart => some stack
  | .rawEnd => some stack

/- The open blocks after a fragment. -/
def read
    (stack : List Block)
    (f : Fragment) : Option (List Block) :=
  f.foldlM readPiece stack

/- All blocks of a fragment are closed. -/
def Closed
    (f : Fragment) : Prop :=
  ∀ stack, read stack f = some stack

end Fragment

------------------------------------------------------------
-- Texts
------------------------------------------------------------

theorem Text.isDigit_of_mem_toString
    {n : Nat}
    {c : Char}
    (hMem : c ∈ (toString n).toList) :
    c.isDigit = true := by
  apply Nat.isDigit_of_mem_toDigits (b := 10) (n := n)
  · decide
  · decide
  · simpa using hMem

namespace Block

theorem readText_append
    (stack : List Block)
    (s s' : String) :
    readText stack (s ++ s') =
      (readText stack s).bind (readText · s') := by
  unfold readText
  rw [String.toList_append, List.foldlM_append]
  rfl

theorem Keeps.append
    {s s' : String}
    (hFirst : Keeps s)
    (hSecond : Keeps s') :
    Keeps (s ++ s') := by
  intro stack
  rw [readText_append, hFirst, Option.bind_some, hSecond]

theorem readChar_of_plain
    {c : Char}
    (hOpen : c ≠ '\x7b')
    (hClose : c ≠ '\x7d')
    (stack : List Block) :
    readChar stack c = some stack := by
  unfold readChar
  rw [if_neg hOpen, if_neg hClose]

/- A text without braces. -/
theorem keeps_of_noBraces
    {s : String}
    (hNone : ∀ c ∈ s.toList, c ≠ '\x7b' ∧ c ≠ '\x7d') :
    Keeps s := by
  intro stack
  unfold readText
  generalize s.toList = cs at hNone
  induction cs with
  | nil => rfl
  | cons c cs ih =>
      have hHead := hNone c List.mem_cons_self
      rw [List.foldlM_cons, readChar_of_plain hHead.1 hHead.2]
      exact ih fun c' hMem =>
        hNone c' (List.mem_cons_of_mem c hMem)

theorem keeps_toString
    (n : Nat) :
    Keeps (toString n) := by
  apply keeps_of_noBraces
  intro c hMem
  have hDigit := Text.isDigit_of_mem_toString hMem
  constructor
  · intro hBrace
    rw [hBrace] at hDigit
    cases hDigit
  · intro hBrace
    rw [hBrace] at hDigit
    cases hDigit

end Block

------------------------------------------------------------
-- Fragments
------------------------------------------------------------

namespace Fragment

theorem read_append
    (stack : List Block)
    (f f' : Fragment) :
    read stack (f ++ f') =
      (read stack f).bind (read · f') := by
  unfold read
  rw [List.foldlM_append]
  rfl

theorem Closed.append
    {f f' : Fragment}
    (hFirst : Closed f)
    (hSecond : Closed f') :
    Closed (f ++ f') := by
  intro stack
  rw [read_append, hFirst, Option.bind_some, hSecond]

theorem closed_nil :
    Closed [] := by
  intro stack
  rfl

theorem read_textPiece
    (stack : List Block)
    (cs : List Char) :
    read stack (textPiece cs) =
      cs.reverse.foldlM Block.readChar stack := by
  unfold textPiece
  split
  · next hEmpty =>
      rw [List.isEmpty_iff.mp hEmpty]
      rfl
  · rw [read, List.foldlM_cons, readPiece, Block.readText,
      String.toList_ofList]
    exact bind_pure _

theorem read_line
    {f : Fragment}
    {rest : List Char}
    (hRest : ∀ stack, read stack f =
      rest.foldlM Block.readChar stack)
    (stack : List Block)
    (cs : List Char) :
    read stack (textPiece cs ++ .newline :: f) =
      (cs.reverse ++ rest).foldlM Block.readChar stack := by
  rw [read_append, read_textPiece, List.foldlM_append]
  congr 1
  funext stack
  exact hRest stack

/- Where lines end does not matter to the blocks. -/
theorem read_splitLines
    (stack : List Block)
    (current cs : List Char) :
    read stack (splitLines current cs) =
      (current.reverse ++ cs).foldlM Block.readChar stack := by
  have hEnd : ∀ rest : List Char, ∀ c : Char,
      c = '\n' ∨ c = '\r' → ∀ stack : List Block,
      (c :: rest).foldlM Block.readChar stack =
        rest.foldlM Block.readChar stack := by
    intro rest c hc stack
    rw [List.foldlM_cons]
    rcases hc with rfl | rfl
    · rw [Block.readChar_of_plain (by decide) (by decide)]
      rfl
    · rw [Block.readChar_of_plain (by decide) (by decide)]
      rfl
  fun_induction splitLines current cs generalizing stack with
  | case1 current =>
      rw [List.append_nil]
      exact read_textPiece stack current
  | case2 current rest ih =>
      apply read_line
      intro stack
      rw [ih, hEnd _ _ (.inr rfl), hEnd _ _ (.inl rfl)]
      rfl
  | case3 current c rest _ hc ih =>
      apply read_line
      intro stack
      rw [Bool.or_eq_true, beq_iff_eq, beq_iff_eq] at hc
      rw [ih, hEnd _ _ hc]
      rfl
  | case4 current c rest _ hc ih =>
      rw [ih, List.reverse_cons, List.append_assoc]
      rfl

theorem read_ofText
    (stack : List Block)
    (s : String) :
    read stack (ofText s) = Block.readText stack s :=
  read_splitLines stack [] s.toList

theorem Closed.read_append
    {f : Fragment}
    (hClosed : Closed f)
    (stack : List Block)
    (f' : Fragment) :
    read stack (f ++ f') = read stack f' := by
  rw [Fragment.read_append, hClosed, Option.bind_some]

theorem read_indent
    (stack : List Block)
    (f : Fragment) :
    read stack (indent ++ f) = read (.indented :: stack) f :=
  rfl

theorem read_dedent
    (stack : List Block)
    (f : Fragment) :
    read (.indented :: stack) (dedent ++ f) = read stack f :=
  rfl

theorem closed_ofText
    {s : String}
    (hKeeps : Block.Keeps s) :
    Closed (ofText s) := by
  intro stack
  rw [read_ofText, hKeeps]

end Fragment

------------------------------------------------------------
-- Decisions
------------------------------------------------------------

namespace Decision

open Fragment (ofText indent dedent read Closed)

/- The guard that a test asks for. -/
def guardOf? : Test → Option String
  | .guard code => some code
  | .scan _ _ guard => guard

/- A decision whose code and guards have some properties. -/
def MadeOf
    (P : Fragment → Prop)
    (Q : String → Prop) : Decision → Prop
  | .run code => P code
  | .test t code otherwise =>
      (∀ guard ∈ guardOf? t, Q guard) ∧ P code ∧
        otherwise.MadeOf P Q
  | .select arms _ otherwise =>
      (∀ arm ∈ arms, P arm.2) ∧ otherwise.MadeOf P Q

/- Kinds are written without opening or closing a block. -/
def KeepsNames
    (s : Session) : Prop :=
  ∀ k name, Assoc.get? k s.namesOfTokens = some name →
    Block.Keeps name

theorem keeps_amountText
    (amount : Nat) :
    Block.Keeps (amountText amount) := by
  unfold amountText
  split
  · intro stack
    rfl
  · exact Block.keeps_toString amount

theorem keeps_testText
    {t : Test}
    (hGuard : ∀ guard ∈ guardOf? t, Block.Keeps guard) :
    Block.Keeps (testText t) := by
  have hCall : ∀ entry amount, Block.Keeps
      ("jj_2_" ++ toString (entry : Nat) ++ "(" ++
        amountText amount) := by
    intro entry amount
    apply Block.Keeps.append _ (keeps_amountText amount)
    apply Block.Keeps.append _ fun _ => rfl
    exact Block.Keeps.append (fun _ => rfl)
      (Block.keeps_toString entry)
  cases t with
  | guard code => exact hGuard code rfl
  | scan entry amount asked =>
      cases asked with
      | none => exact (hCall entry amount).append fun _ => rfl
      | some guard =>
          apply Block.Keeps.append _ fun _ => rfl
          apply Block.Keeps.append _ (hGuard guard rfl)
          exact (hCall entry amount).append fun _ => rfl

theorem keeps_kindName
    {s : Session}
    (hNames : KeepsNames s)
    (k : Kind) :
    Block.Keeps (kindName s k) := by
  unfold kindName
  cases hName : Assoc.get? k s.namesOfTokens with
  | none => exact Block.keeps_toString k
  | some name => exact hNames k name hName

theorem closed_renderSlot
    (slot : Option Nat) :
    Closed (renderSlot slot) := by
  cases slot with
  | none => exact Fragment.closed_nil
  | some n =>
      apply Fragment.closed_ofText
      apply Block.Keeps.append _ fun _ => rfl
      exact Block.Keeps.append (fun _ => rfl)
        (Block.keeps_toString n)

/- The labels of an arm stand outside the block of the arms. -/
theorem read_labels
    {s : Session}
    (hNames : KeepsNames s)
    (kinds : List Kind)
    (stack : List Block) :
    read (.indented :: stack)
        (kinds.flatMap fun k => dedent ++
          ofText s!"\ncase {kindName s k}:" ++ indent) =
      some (.indented :: stack) := by
  induction kinds with
  | nil => rfl
  | cons k kinds ih =>
      have hLabel : Closed
          (ofText s!"\ncase {kindName s k}:") := by
        apply Fragment.closed_ofText
        apply Block.Keeps.append _ fun _ => rfl
        exact Block.Keeps.append (fun _ => rfl)
          (keeps_kindName hNames k)
      rw [List.flatMap_cons, List.append_assoc,
        List.append_assoc]
      refine Eq.trans (hLabel.read_append stack _) ?_
      exact ih

theorem read_renderArm
    {s : Session}
    (hNames : KeepsNames s)
    {arm : List Kind × Fragment}
    (hCode : Closed arm.2)
    (stack : List Block) :
    read (.indented :: stack) (renderArm s arm) =
      some (.indented :: stack) := by
  unfold renderArm
  rw [List.append_assoc, List.append_assoc,
    Fragment.read_append, read_labels hNames,
    Option.bind_some]
  refine Eq.trans (hCode.read_append _ _) ?_
  rfl

theorem read_arms
    {s : Session}
    (hNames : KeepsNames s)
    {arms : List (List Kind × Fragment)}
    (hCodes : ∀ arm ∈ arms, Closed arm.2)
    (stack : List Block) :
    read (.indented :: stack) (arms.flatMap (renderArm s)) =
      some (.indented :: stack) := by
  induction arms with
  | nil => rfl
  | cons arm arms ih =>
      rw [List.flatMap_cons, Fragment.read_append,
        read_renderArm hNames
          (hCodes arm List.mem_cons_self),
        Option.bind_some]
      apply ih
      intro arm' hMem
      exact hCodes arm' (List.mem_cons_of_mem arm hMem)

/- A text that asks for something opens a block. -/
theorem read_asking
    {asked : String}
    (hKeeps : Block.Keeps asked)
    (start : String)
    (stack stack' : List Block)
    (hStart : Block.readText stack start = some stack')
    (f : Fragment) :
    read stack
        (ofText (start ++ asked ++ ") \x7b") ++
          (indent ++ f)) =
      read (.indented :: .braces :: stack') f := by
  rw [Fragment.read_append, Fragment.read_ofText,
    Block.readText_append, Block.readText_append, hStart,
    Option.bind_some, hKeeps]
  rfl

theorem closed_closing
    (stack : List Block) :
    read (.indented :: .braces :: stack) closing =
      some stack := rfl

/- The block of a failed test is closed and one is opened. -/
theorem read_elseOpening
    (stack : List Block)
    (f : Fragment) :
    read (.indented :: .braces :: stack) (elseOpening ++ f) =
      read (.indented :: .braces :: stack) f := by
  rw [Fragment.read_append]
  rfl

/- The code of a selection, whatever comes before it. -/
theorem closed_selection
    {s : Session}
    (hNames : KeepsNames s)
    {arms : List (List Kind × Fragment)}
    (hCodes : ∀ arm ∈ arms, Closed arm.2)
    (slot : Option Nat)
    {f : Fragment}
    (hRest : Closed f) :
    Closed
      (ofText s!"\nswitch ({nextKindText s.options}) \x7b" ++
        (indent ++ (arms.flatMap (renderArm s) ++
          (dedent ++ (ofText "\ndefault:" ++ (indent ++
            (renderSlot slot ++ (f ++ closing)))))))) := by
  have hKeeps : Block.Keeps (nextKindText s.options) := by
    intro stack
    unfold nextKindText
    split
    · split
      · rfl
      · rfl
    · rfl
  have hDefault : Closed (ofText "\ndefault:") :=
    Fragment.closed_ofText fun _ => rfl
  intro stack
  refine (read_asking hKeeps "\nswitch (" stack stack rfl
    _).trans ?_
  rw [Fragment.read_append, read_arms hNames hCodes,
    Option.bind_some, Fragment.read_dedent,
    hDefault.read_append, Fragment.read_indent,
    (closed_renderSlot slot).read_append, hRest.read_append]
  exact closed_closing stack

/-
  A decision is read on its own, or in the block of a test
  that has failed.  That block is open before and after.
-/
theorem read_renderIn
    {s : Session}
    (hNames : KeepsNames s)
    {d : Decision}
    (hMade : d.MadeOf Closed Block.Keeps)
    (stack : List Block) :
    read stack (renderIn s false d) = some stack ∧
      read (.indented :: .braces :: stack)
          (renderIn s true d) =
        some (.indented :: .braces :: stack) := by
  induction d generalizing stack with
  | run code =>
      constructor
      · exact hMade stack
      · simp only [renderIn, if_true]
        rw [read_elseOpening]
        exact hMade _
  | test t code otherwise ih =>
      rcases hMade with ⟨hGuard, hCode, hRest⟩
      have hAsked := keeps_testText hGuard
      have hInside := (ih hRest stack).2
      constructor
      · simp only [renderIn, List.append_assoc]
        refine (read_asking hAsked "\nif (" stack stack rfl
          _).trans ?_
        rw [hCode.read_append, Fragment.read_append, hInside]
        exact closed_closing stack
      · simp only [renderIn, List.append_assoc]
        rw [Fragment.read_dedent]
        refine (read_asking hAsked "\n\x7d else if ("
          (.braces :: stack) stack rfl _).trans ?_
        rw [hCode.read_append]
        exact hInside
  | select arms slot otherwise ih =>
      rcases hMade with ⟨hCodes, hRest⟩
      have hOwn := closed_selection hNames hCodes slot
        fun stack => (ih hRest stack).1
      constructor
      · simp only [renderIn, List.append_assoc]
        exact hOwn stack
      · simp only [renderIn, if_true, List.append_assoc]
        rw [read_elseOpening]
        exact hOwn _

/- The code of a decision closes the blocks that it opens. -/
theorem closed_render
    {s : Session}
    (hNames : KeepsNames s)
    {d : Decision}
    (hMade : d.MadeOf Closed Block.Keeps) :
    Closed (d.render s) := by
  intro stack
  exact (read_renderIn hNames hMade stack).1

end Decision

end Descent
