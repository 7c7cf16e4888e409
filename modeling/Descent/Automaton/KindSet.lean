import Descent.Grammar.Basic

/-
  This file defines sets of token kinds as bit masks, which
  generated code holds in words of 64 bits.

  Key definitions include:
    * `KindSet`
    * `KindSet.insert`
    * `KindSet.contains`
    * `KindSet.kinds`
    * `KindSet.word`
-/

namespace Descent

/- A set of kinds; kind `k` is in it when bit `k` is set. -/
structure KindSet where
  mask : Nat := 0
  deriving Repr, DecidableEq, Inhabited

namespace KindSet

/- The set without kinds. -/
def empty : KindSet := ⟨0⟩

/- Add a kind. -/
def insert
    (s : KindSet)
    (k : Kind) : KindSet :=
  ⟨s.mask ||| 1 <<< k⟩

/- A kind is in the set. -/
def contains
    (s : KindSet)
    (k : Kind) : Bool :=
  s.mask.testBit k

/- The kinds in both sets. -/
def inter
    (s t : KindSet) : KindSet :=
  ⟨s.mask &&& t.mask⟩

/- There is no kind in the set. -/
def isEmpty
    (s : KindSet) : Bool :=
  s.mask == 0

/- The kinds of a set, in ascending order. -/
def kinds
    (s : KindSet) : List Kind :=
  (List.range (s.mask.log2 + 1)).filter s.contains

/- The number of kinds. -/
def count
    (s : KindSet) : Nat :=
  s.kinds.length

/- The least kind. -/
def least?
    (s : KindSet) : Option Kind :=
  s.kinds.head?

/- The set of the kinds in a list. -/
def ofList
    (ks : List Kind) : KindSet :=
  ks.foldl insert empty

/- The bits of a word. -/
def wordBits : Nat := 64

/- One word of the mask. -/
def word
    (s : KindSet)
    (j : Nat) : Nat :=
  (s.mask >>> (wordBits * j)) % (1 <<< wordBits)

/- The first words of the mask. -/
def words
    (s : KindSet)
    (n : Nat) : List Nat :=
  (List.range n).map s.word

end KindSet

end Descent
