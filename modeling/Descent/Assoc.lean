/-
  This file defines tables as association lists with distinct
  keys.  A table keeps the order in which its keys were first
  entered, or ascending order where the operation says so.

  Key definitions include:
    * `Assoc`
    * `Assoc.get?`
    * `Assoc.insert`
    * `Assoc.alter`
    * `Assoc.alterSorted`
-/

namespace Descent

/- A table. -/
abbrev Assoc (κ α : Type) :=
  List (κ × α)

namespace Assoc

variable {κ α : Type} [DecidableEq κ]

/- The value of a key. -/
def get?
    (key : κ) : Assoc κ α → Option α
  | [] => none
  | (k, v) :: rest => if k = key then some v else get? key rest

/- The key has a value. -/
def contains
    (key : κ)
    (t : Assoc κ α) : Bool :=
  (get? key t).isSome

/-
  Change the value of a key in its place, or enter the key at
  the end.
-/
def alter
    (key : κ)
    (f : Option α → α) : Assoc κ α → Assoc κ α
  | [] => [(key, f none)]
  | (k, v) :: rest =>
      if k = key then
        (k, f (some v)) :: rest
      else
        (k, v) :: alter key f rest

/- Give a key a value. -/
def insert
    (key : κ)
    (value : α)
    (t : Assoc κ α) : Assoc κ α :=
  alter key (fun _ => value) t

/-
  Change the value of a key in a table with ascending keys, or
  enter the key where it belongs.
-/
def alterSorted
    (key : Nat)
    (f : Option α → α) : Assoc Nat α → Assoc Nat α
  | [] => [(key, f none)]
  | (k, v) :: rest =>
      if key < k then
        (key, f none) :: (k, v) :: rest
      else if k = key then
        (k, f (some v)) :: rest
      else
        (k, v) :: alterSorted key f rest

/- Give a key a value in a table with ascending keys. -/
def insertSorted
    (key : Nat)
    (value : α)
    (t : Assoc Nat α) : Assoc Nat α :=
  alterSorted key (fun _ => value) t

end Assoc

end Descent
