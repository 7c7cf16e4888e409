import Descent.Assoc
import Descent.Automaton.KindSet
import Mathlib.Data.List.Basic
import Mathlib.Order.Bounds.Basic
import Mathlib.Tactic.Common

/-
  Arrays, tables and sets of kinds, as what can be looked up
  in them.

  Main declarations:
    * `getD_push` and `getD_modify`
    * `Assoc.get?_alter` and `Assoc.get?_alterSorted`
    * `Assoc.mem_insert` and `Assoc.mem_alterSorted`
    * `Assoc.Ascending`
    * `KindSet.contains_insert`, `KindSet.contains_inter` and
      `KindSet.contains_ofList`
    * `KindSet.least?_eq_some_iff`
-/

------------------------------------------------------------
-- Arrays
------------------------------------------------------------

namespace Descent

section Arrays

variable {α : Type}

theorem getD_push
    (xs : Array α)
    (x fallback : α)
    (i : Nat) :
    (xs.push x).getD i fallback =
      if i = xs.size then x else xs.getD i fallback := by
  simp only [Array.getD_eq_getD_getElem?, Array.getElem?_push]
  split
  · rfl
  · rfl

theorem getD_modify_at
    (xs : Array α)
    (f : α → α)
    (fallback : α)
    (i k : Nat) :
    (xs.modify k f).getD i fallback =
      if i = k ∧ k < xs.size then f (xs.getD k fallback)
      else xs.getD i fallback := by
  simp only [Array.getD_eq_getD_getElem?,
    Array.getElem?_modify]
  by_cases hSame : k = i
  · subst hSame
    by_cases hInside : k < xs.size
    · simp [hInside]
    · simp [hInside]
  · rw [if_neg hSame, if_neg fun h => hSame h.1.symm]

theorem getD_modify
    (xs : Array α)
    (f : α → α)
    (fallback : α)
    (i : Nat)
    {k : Nat}
    (hInside : k < xs.size) :
    (xs.modify k f).getD i fallback =
      if i = k then f (xs.getD i fallback)
      else xs.getD i fallback := by
  rw [getD_modify_at]
  by_cases hSame : i = k
  · rw [if_pos ⟨hSame, hInside⟩, if_pos hSame, hSame]
  · rw [if_neg fun h => hSame h.1, if_neg hSame]

end Arrays

------------------------------------------------------------
-- Tables
------------------------------------------------------------

namespace Assoc

section Lookup

variable {κ α : Type} [DecidableEq κ]

/- A table with one changed key. -/
theorem get?_alter
    (key k : κ)
    (f : Option α → α)
    (t : Assoc κ α) :
    get? k (alter key f t) =
      if k = key then some (f (get? key t)) else get? k t := by
  induction t with
  | nil =>
      simp only [alter, get?]
      exact if_congr eq_comm rfl rfl
  | cons e rest ih =>
      rcases e with ⟨k', v⟩
      unfold alter
      by_cases hHere : k' = key
      · subst hHere
        simp only [get?, if_true]
        by_cases hk : k = k'
        · simp only [hk, if_true]
        · simp only [if_neg hk, if_neg (Ne.symm hk)]
      · simp only [get?, if_neg hHere, ih]
        by_cases hk : k' = k
        · have hNe : ¬ k = key := fun h => hHere (hk.trans h)
          simp only [if_pos hk, if_neg hNe]
        · simp only [if_neg hk]

theorem mem_of_get?
    {key : κ}
    {value : α}
    {t : Assoc κ α}
    (hGet : get? key t = some value) :
    (key, value) ∈ t := by
  induction t with
  | nil => cases hGet
  | cons e rest ih =>
      rcases e with ⟨k, v⟩
      unfold get? at hGet
      split at hGet
      · next hKey =>
          cases hGet
          rw [hKey]
          exact List.mem_cons_self
      · exact List.mem_cons_of_mem _ (ih hGet)

/- The keys of a table after a change. -/
theorem keys_alter
    (key : κ)
    (f : Option α → α)
    (t : Assoc κ α) :
    (alter key f t).map (·.1) =
      if key ∈ t.map (·.1) then t.map (·.1)
      else t.map (·.1) ++ [key] := by
  induction t with
  | nil => rfl
  | cons e rest ih =>
      rcases e with ⟨k, v⟩
      unfold alter
      by_cases hHere : k = key
      · rw [if_pos hHere]
        simp [hHere]
      · have hNe : ¬ key = k := fun h => hHere h.symm
        rw [if_neg hHere, List.map_cons, ih]
        simp only [List.map_cons, List.mem_cons, hNe,
          false_or]
        split <;> rfl

theorem nodup_keys_alter
    (key : κ)
    (f : Option α → α)
    {t : Assoc κ α}
    (hKeys : (t.map (·.1)).Nodup) :
    ((alter key f t).map (·.1)).Nodup := by
  rw [keys_alter]
  split
  · exact hKeys
  · next hNew =>
      refine List.nodup_append.mpr
        ⟨hKeys, List.pairwise_singleton _ _, ?_⟩
      intro a ha b hb hEq
      rw [List.mem_singleton] at hb
      exact hNew (hb ▸ hEq ▸ ha)

theorem get?_of_mem
    {key : κ}
    {value : α}
    {t : Assoc κ α}
    (hKeys : (t.map (·.1)).Nodup)
    (hMem : (key, value) ∈ t) :
    get? key t = some value := by
  induction t with
  | nil => cases hMem
  | cons e rest ih =>
      rcases e with ⟨k, v⟩
      rw [List.map_cons, List.nodup_cons] at hKeys
      unfold get?
      rcases List.mem_cons.mp hMem with hHead | hMem
      · cases hHead
        rw [if_pos rfl]
      · have hNe : ¬ k = key := by
          rintro rfl
          exact hKeys.1 (List.mem_map.mpr ⟨_, hMem, rfl⟩)
        rw [if_neg hNe]
        exact ih hKeys.2 hMem

/- What is in a table once a key has been given a value. -/
theorem mem_insert
    {key : κ}
    {value : α}
    {t : Assoc κ α}
    {e : κ × α}
    (hMem : e ∈ insert key value t) :
    e = (key, value) ∨ e ∈ t := by
  unfold insert at hMem
  induction t with
  | nil => exact .inl (List.mem_singleton.mp hMem)
  | cons first rest ih =>
      rcases first with ⟨k, v⟩
      unfold alter at hMem
      split_ifs at hMem with hSame
      · rcases List.mem_cons.mp hMem with hHere | hRest
        · exact .inl (hSame ▸ hHere)
        · exact .inr (List.mem_cons_of_mem _ hRest)
      · rcases List.mem_cons.mp hMem with hHere | hRest
        · exact .inr (hHere ▸ List.mem_cons_self)
        · exact (ih hRest).imp_right (List.mem_cons_of_mem _)

end Lookup

section Ascending

variable {α : Type}

/- The keys of a table ascend. -/
def Ascending
    (t : Assoc Nat α) : Prop :=
  (t.map (·.1)).Pairwise (· < ·)

theorem ascending_nil :
    Ascending ([] : Assoc Nat α) :=
  .nil

theorem mem_keys_alterSorted
    (key k : Nat)
    (f : Option α → α)
    (t : Assoc Nat α) :
    k ∈ (alterSorted key f t).map (·.1) ↔
      k = key ∨ k ∈ t.map (·.1) := by
  induction t with
  | nil => simp [alterSorted]
  | cons e rest ih =>
      rcases e with ⟨k', v⟩
      unfold alterSorted
      split
      · simp
      · split
        · next hKey => simp [hKey]
        · simp only [List.map_cons, List.mem_cons, ih]
          tauto

theorem Ascending.alterSorted
    {t : Assoc Nat α}
    (hAscending : Ascending t)
    (key : Nat)
    (f : Option α → α) :
    Ascending (alterSorted key f t) := by
  unfold Ascending at hAscending ⊢
  induction t with
  | nil => simp [Assoc.alterSorted]
  | cons e rest ih =>
      rcases e with ⟨k, v⟩
      have hCons := List.pairwise_cons.mp hAscending
      unfold Assoc.alterSorted
      split
      · next hLess =>
          refine List.pairwise_cons.mpr ⟨?_, hAscending⟩
          intro k' hk'
          rcases List.mem_cons.mp hk' with rfl | hk'
          · exact hLess
          · exact hLess.trans (hCons.1 k' hk')
      · next hNot =>
          split
          · exact hAscending
          · next hNe =>
              refine List.pairwise_cons.mpr
                ⟨?_, ih hCons.2⟩
              intro k' hk'
              rcases (mem_keys_alterSorted key k' f rest).mp
                hk' with rfl | hk'
              · change k < k'
                omega
              · exact hCons.1 k' hk'

/- A table with ascending keys and one changed key. -/
theorem get?_alterSorted
    {t : Assoc Nat α}
    (hAscending : Ascending t)
    (key k : Nat)
    (f : Option α → α) :
    get? k (alterSorted key f t) =
      if k = key then some (f (get? key t)) else get? k t := by
  unfold Ascending at hAscending
  induction t with
  | nil =>
      simp only [Assoc.alterSorted, get?]
      exact if_congr eq_comm rfl rfl
  | cons e rest ih =>
      rcases e with ⟨k', v⟩
      have hCons := List.pairwise_cons.mp hAscending
      unfold Assoc.alterSorted
      by_cases hLess : key < k'
      · -- A smaller key than the first one is not in the table.
        have hAbsent : get? key ((k', v) :: rest) = none := by
          by_contra hSome
          rcases Option.ne_none_iff_exists'.mp hSome with
            ⟨value, hValue⟩
          rcases List.mem_cons.mp (mem_of_get? hValue) with
            hEq | hMem
          · cases hEq
            exact Nat.lt_irrefl _ hLess
          · have hLater := hCons.1 key
              (List.mem_map_of_mem hMem)
            change k' < key at hLater
            omega
        rw [if_pos hLess, hAbsent]
        by_cases hk : k = key
        · simp [get?, hk]
        · have hNe : ¬ key = k := fun h => hk h.symm
          rw [if_neg hk]
          simp only [get?, if_neg hNe]
      · rw [if_neg hLess]
        by_cases hHere : k' = key
        · subst hHere
          simp only [get?, if_true]
          by_cases hk : k = k'
          · simp only [hk, if_true]
          · simp only [if_neg hk, if_neg (Ne.symm hk)]
        · simp only [get?, if_neg hHere, ih hCons.2]
          by_cases hk : k' = k
          · have hNe : ¬ k = key := fun h =>
              hHere (hk.trans h)
            simp only [if_pos hk, if_neg hNe]
          · simp only [if_neg hk]

theorem get?_insertSorted
    {t : Assoc Nat α}
    (hAscending : Ascending t)
    (key k : Nat)
    (value : α) :
    get? k (insertSorted key value t) =
      if k = key then some value else get? k t :=
  get?_alterSorted hAscending key k _

/-
  What is in a table once a key has been changed: the changed
  value is made from what stood there before, if anything did.
-/
theorem mem_alterSorted
    {key : Nat}
    {f : Option α → α}
    {t : Assoc Nat α}
    {e : Nat × α}
    (hMem : e ∈ alterSorted key f t) :
    (∃ old, e = (key, f old) ∧
        ∀ value, old = some value → (key, value) ∈ t) ∨
      e ∈ t := by
  induction t with
  | nil =>
      refine .inl ⟨none, List.mem_singleton.mp hMem, ?_⟩
      exact fun value hValue => nomatch hValue
  | cons first rest ih =>
      rcases first with ⟨k, v⟩
      unfold Assoc.alterSorted at hMem
      split_ifs at hMem with hLess hSame
      · rcases List.mem_cons.mp hMem with hHere | hRest
        · exact .inl ⟨none, hHere, fun _ hValue => nomatch hValue⟩
        · exact .inr hRest
      · rcases List.mem_cons.mp hMem with hHere | hRest
        · subst hSame
          refine .inl ⟨some v, hHere, ?_⟩
          rintro value ⟨⟩
          exact List.mem_cons_self
        · exact .inr (List.mem_cons_of_mem _ hRest)
      · rcases List.mem_cons.mp hMem with hHere | hRest
        · exact .inr (hHere ▸ List.mem_cons_self)
        · rcases ih hRest with ⟨old, hEntry, hOld⟩ | hOld
          · exact .inl ⟨old, hEntry, fun value hValue =>
              List.mem_cons_of_mem _ (hOld value hValue)⟩
          · exact .inr (List.mem_cons_of_mem _ hOld)

theorem mem_insertSorted
    {key : Nat}
    {value : α}
    {t : Assoc Nat α}
    {e : Nat × α}
    (hMem : e ∈ insertSorted key value t) :
    e = (key, value) ∨ e ∈ t :=
  (mem_alterSorted hMem).imp_left fun ⟨_, h, _⟩ => h

end Ascending

end Assoc

------------------------------------------------------------
-- Sets of kinds
------------------------------------------------------------

namespace KindSet

@[simp] theorem contains_empty
    (k : Nat) :
    ({} : KindSet).contains k = false :=
  Nat.zero_testBit k

@[simp] theorem contains_insert
    (s : KindSet)
    (k j : Nat) :
    (s.insert k).contains j = true ↔
      j = k ∨ s.contains j = true := by
  unfold insert contains
  rw [Nat.testBit_or, Nat.one_shiftLeft, Nat.testBit_two_pow,
    Bool.or_eq_true, decide_eq_true_eq]
  tauto

@[simp] theorem contains_inter
    (s t : KindSet)
    (j : Nat) :
    (s.inter t).contains j = true ↔
      s.contains j = true ∧ t.contains j = true := by
  unfold inter contains
  rw [Nat.testBit_and, Bool.and_eq_true]

theorem contains_ofList
    (ks : List Kind)
    (k : Nat) :
    (ofList ks).contains k = true ↔ k ∈ ks := by
  have hFold : ∀ (s : KindSet) (ks : List Kind),
      (ks.foldl insert s).contains k = true ↔
        s.contains k = true ∨ k ∈ ks := by
    intro s ks
    induction ks generalizing s with
    | nil => simp
    | cons j ks ih =>
        simp only [List.foldl_cons, ih, contains_insert,
          List.mem_cons]
        tauto
  simpa [ofList, empty] using hFold empty ks

theorem isEmpty_iff
    (s : KindSet) :
    s.isEmpty = true ↔ ∀ k, ¬ s.contains k = true := by
  unfold isEmpty contains
  rw [beq_iff_eq]
  constructor
  · intro hZero k
    simp [hZero]
  · intro hNone
    refine Nat.eq_of_testBit_eq fun k => ?_
    simpa using hNone k

/- Sets with the same kinds are the same. -/
theorem ext_contains
    {s t : KindSet}
    (hSame : ∀ k, s.contains k = true ↔ t.contains k = true) :
    s = t := by
  have hMask : s.mask = t.mask :=
    Nat.eq_of_testBit_eq fun k =>
      Bool.eq_iff_iff.mpr (hSame k)
  rcases s with ⟨m⟩
  rcases t with ⟨m'⟩
  exact congrArg KindSet.mk hMask

theorem not_isEmpty_iff
    (s : KindSet) :
    s.isEmpty = false ↔ ∃ k, s.contains k = true := by
  rw [← Bool.not_eq_true, isEmpty_iff]
  push Not
  rfl

theorem mem_kinds
    (s : KindSet)
    (k : Nat) :
    k ∈ s.kinds ↔ s.contains k = true := by
  unfold kinds
  rw [List.mem_filter, List.mem_range, Nat.lt_succ_iff]
  refine and_iff_right_of_imp ?_
  intro hContains
  have hPow : 2 ^ k ≤ s.mask :=
    Nat.ge_two_pow_of_testBit hContains
  have hPositive : s.mask ≠ 0 := by
    have hTwo : 0 < 2 ^ k := Nat.two_pow_pos k
    omega
  exact (Nat.le_log2 hPositive).mpr hPow

theorem pairwise_kinds
    (s : KindSet) :
    s.kinds.Pairwise (· < ·) :=
  List.pairwise_lt_range.filter _

/- The least kind is the first one of the ascending list. -/
theorem least?_eq_some_iff
    (s : KindSet)
    (k : Nat) :
    s.least? = some k ↔
      IsLeast { j | s.contains j = true } k := by
  have hSorted := pairwise_kinds s
  have hMem := mem_kinds s
  unfold least?
  generalize s.kinds = ks at hSorted hMem
  constructor
  · intro hHead
    cases ks with
    | nil => cases hHead
    | cons j ks =>
        have hEq : j = k := Option.some_inj.mp hHead
        subst hEq
        refine ⟨(hMem j).mp List.mem_cons_self, ?_⟩
        intro i hi
        rcases List.mem_cons.mp ((hMem i).mpr hi) with
          rfl | hi
        · exact le_rfl
        · exact ((List.pairwise_cons.mp hSorted).1 i hi).le
  · rintro ⟨hContains, hLow⟩
    cases ks with
    | nil => cases (hMem k).mpr hContains
    | cons j ks =>
        have hFirst : j ∈ { i | s.contains i = true } :=
          (hMem j).mp List.mem_cons_self
        have hLe := hLow hFirst
        rcases List.mem_cons.mp ((hMem k).mpr hContains) with
          hEq | hk
        · rw [hEq]
          rfl
        · have hLess := (List.pairwise_cons.mp hSorted).1 k hk
          exact absurd hLe (not_le.mpr hLess)

theorem least?_eq_none_iff
    (s : KindSet) :
    s.least? = none ↔ ∀ k, ¬ s.contains k = true := by
  unfold least?
  rw [List.head?_eq_none_iff]
  constructor
  · intro hNil k hk
    rw [← mem_kinds, hNil] at hk
    cases hk
  · intro hNone
    refine List.eq_nil_iff_forall_not_mem.mpr ?_
    intro k hk
    exact hNone k ((mem_kinds s k).mp hk)

end KindSet

end Descent
