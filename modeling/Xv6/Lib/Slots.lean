import Mathlib

/-!
# Tables of slots as finite maps

A table has `n` slots; `e j` is what slot `j` holds, a key with its value, or nothing.  A key is
looked for from slot 0 on.  As long as no two slots hold the same key (`Distinct`), the table is the
finite map `get`: filling an empty slot, or one more slot at the end, adds a key that was not there,
and emptying a slot takes away the key that it held.
-/

namespace Xv6.Slots

variable {κ ν : Type} [DecidableEq κ] {e e' : Nat → Option (κ × ν)} {n n' : Nat} {k : κ} {v : ν}
  {j : Nat}

/-- The first slot that holds the key. -/
def find (e : Nat → Option (κ × ν)) (n : Nat) (k : κ) : Option Nat :=
  (List.range n).find? fun j => (e j).any fun x => decide (x.1 = k)

/-- What the table says about a key. -/
def get (e : Nat → Option (κ × ν)) (n : Nat) (k : κ) : Option ν :=
  (find e n k).bind fun j => (e j).map Prod.snd

/-- No two slots hold the same key. -/
def Distinct (e : Nat → Option (κ × ν)) (n : Nat) : Prop :=
  ∀ i j, i < n → j < n → ∀ k v w, e i = some (k, v) → e j = some (k, w) → i = j

theorem find_some (h : find e n k = some j) : j < n ∧ ∃ v, e j = some (k, v) := by
  unfold find at h
  have hj := List.mem_range.1 (List.mem_of_find?_eq_some h)
  have ht := List.find?_some h
  obtain ⟨⟨k', v⟩, hx, hk⟩ := (Option.any_eq_true _ _).1 ht
  have hk : k' = k := of_decide_eq_true hk
  exact ⟨hj, v, hk ▸ hx⟩

theorem find_none (h : find e n k = none) (hj : j < n) (v : ν) : e j ≠ some (k, v) := by
  intro hv
  have := List.find?_eq_none.1 h j (List.mem_range.2 hj)
  rw [hv] at this
  exact this (decide_eq_true rfl)

theorem find_eq (hd : Distinct e n) (hj : j < n) (hv : e j = some (k, v)) : find e n k = some j := by
  cases hf : find e n k with
  | none => exact absurd hv (find_none hf hj v)
  | some i =>
    obtain ⟨hi, w, hw⟩ := find_some hf
    rw [hd i j hi hj k w v hw hv]

theorem get_eq_some (hd : Distinct e n) : get e n k = some v ↔ ∃ j, j < n ∧ e j = some (k, v) := by
  unfold get
  constructor
  · intro h
    obtain ⟨j, hj, hv⟩ := Option.bind_eq_some_iff.1 h
    obtain ⟨hlt, w, hw⟩ := find_some hj
    rw [hw] at hv
    cases hv
    exact ⟨j, hlt, hw⟩
  · rintro ⟨j, hj, hv⟩
    rw [find_eq hd hj hv, Option.bind_some, hv]
    rfl

/-! ## Filling and emptying a slot -/

section
variable (hd : Distinct e n)
include hd

/-- Slot `j`, which is empty or the next one, gets a key that the table does not have. -/
theorem Distinct.insert (hj : j ≤ n) (hempty : j < n → e j = none) (hk : find e n k = none)
    (hn : n' = max n (j + 1)) (hself : e' j = some (k, v)) (hother : ∀ i, i ≠ j → e' i = e i) :
    Distinct e' n' ∧ ∀ k', get e' n' k' = if k' = k then some v else get e n k' := by
  have hlt : ∀ i, i < n' → i ≠ j → i < n := by
    intro i hi hne
    omega
  have hdist : Distinct e' n' := by
    intro a b ha hb k' v' w' hv hw
    by_cases haj : a = j
    · by_cases hbj : b = j
      · rw [haj, hbj]
      · rw [haj, hself] at hv
        cases hv
        rw [hother b hbj] at hw
        exact absurd hw (find_none hk (hlt b hb hbj) w')
    · by_cases hbj : b = j
      · rw [hbj, hself] at hw
        cases hw
        rw [hother a haj] at hv
        exact absurd hv (find_none hk (hlt a ha haj) v')
      · rw [hother a haj] at hv
        rw [hother b hbj] at hw
        exact hd a b (hlt a ha haj) (hlt b hb hbj) k' v' w' hv hw
  refine ⟨hdist, fun k' => ?_⟩
  split
  next he =>
    subst he
    exact (get_eq_some hdist).2 ⟨j, by omega, hself⟩
  next he =>
    apply Option.ext
    intro w
    rw [get_eq_some hdist, get_eq_some hd]
    constructor
    · rintro ⟨i, hi, hw⟩
      by_cases hij : i = j
      · rw [hij, hself] at hw
        cases hw
        exact absurd rfl he
      · exact ⟨i, hlt i hi hij, hother i hij ▸ hw⟩
    · rintro ⟨i, hi, hw⟩
      have hij : i ≠ j := by
        rintro rfl
        rw [hempty hi] at hw
        cases hw
      exact ⟨i, by omega, (hother i hij).trans hw⟩

/-- Slot `j`, which holds `k`, is emptied. -/
theorem Distinct.erase (hj : j < n) (hk : e j = some (k, v)) (hself : e' j = none)
    (hother : ∀ i, i ≠ j → e' i = e i) :
    Distinct e' n ∧ ∀ k', get e' n k' = if k' = k then none else get e n k' := by
  have hne : ∀ i k' w, e' i = some (k', w) → i ≠ j := by
    rintro i k' w hw rfl
    rw [hself] at hw
    cases hw
  have hdist : Distinct e' n := by
    intro a b ha hb k' v' w' hv hw
    refine hd a b ha hb k' v' w' ?_ ?_
    · exact hother a (hne a k' v' hv) ▸ hv
    · exact hother b (hne b k' w' hw) ▸ hw
  refine ⟨hdist, fun k' => ?_⟩
  apply Option.ext
  intro w
  rw [get_eq_some hdist]
  split
  next he =>
    subst he
    constructor
    · rintro ⟨i, hi, hw⟩
      have hij := hne i k' w hw
      exact absurd (hd i j hi hj k' w v (hother i hij ▸ hw) hk) hij
    · intro hw
      cases hw
  next he =>
    rw [get_eq_some hd]
    constructor
    · rintro ⟨i, hi, hw⟩
      exact ⟨i, hi, hother i (hne i k' w hw) ▸ hw⟩
    · rintro ⟨i, hi, hw⟩
      have hij : i ≠ j := by
        rintro rfl
        rw [hk] at hw
        cases hw
        exact he rfl
      exact ⟨i, hi, (hother i hij).trans hw⟩

end

end Xv6.Slots
