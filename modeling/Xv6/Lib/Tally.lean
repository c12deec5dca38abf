import Mathlib

/-!
# Sums over a table

Tables are functions from a finite type.  `total w f` adds up the weights of the
entries, `tally p f` counts those that have a property.  An update of one entry
changes either by that entry, which is stated as a balance: no subtraction.
-/

namespace Xv6

open Function

section
variable {ι α β : Type} [Fintype ι]

/-- The sum of the weights of the entries of `f`. -/
def total (w : α → Nat) (f : ι → α) : Nat := ∑ i, w (f i)

/-- The number of entries of `f` that have `p`. -/
def tally (p : α → Prop) [DecidablePred p] (f : ι → α) : Nat := ∑ i, if p (f i) then 1 else 0

variable {f : ι → α}

theorem total_congr {w : α → Nat} {w' : β → Nat} {g : ι → β}
    (h : ∀ i, w (f i) = w' (g i)) : total w f = total w' g :=
  Finset.sum_congr rfl fun i _ => h i

theorem total_eq_zero {w : α → Nat} (h : ∀ i, w (f i) = 0) : total w f = 0 :=
  Finset.sum_eq_zero fun i _ => h i

theorem le_total [DecidableEq ι] (w : α → Nat) (f : ι → α) (i : ι) : w (f i) ≤ total w f := by
  unfold total
  rw [← Finset.add_sum_erase _ (fun j => w (f j)) (Finset.mem_univ i)]
  exact Nat.le_add_right ..

theorem total_update [DecidableEq ι] (w : α → Nat) (f : ι → α) (i : ι) (a : α) :
    total w (update f i a) + w (f i) = total w f + w a := by
  have h : ∀ g : ι → α, total w g = w (g i) + ∑ j ∈ Finset.univ.erase i, w (g j) :=
    fun g => (Finset.add_sum_erase _ _ (Finset.mem_univ i)).symm
  have hrest : (∑ j ∈ Finset.univ.erase i, w (update f i a j)) =
      ∑ j ∈ Finset.univ.erase i, w (f j) := by
    refine Finset.sum_congr rfl fun j hj => ?_
    rw [update_of_ne (Finset.ne_of_mem_erase hj)]
  rw [h f, h (update f i a), hrest, update_self]
  omega

/-- Two entries weigh no more than all. -/
theorem add_le_total [DecidableEq ι] (w : α → Nat) (f : ι → α) {i j : ι} (h : j ≠ i) :
    w (f i) + w (f j) ≤ total w f := by
  have hj : j ∈ Finset.univ.erase i := Finset.mem_erase.mpr ⟨h, Finset.mem_univ j⟩
  unfold total
  rw [← Finset.add_sum_erase _ (fun j => w (f j)) (Finset.mem_univ i),
    ← Finset.add_sum_erase _ (fun j => w (f j)) hj]
  exact Nat.add_le_add_left (Nat.le_add_right ..) _

variable {p : α → Prop} [DecidablePred p]

theorem tally_update [DecidableEq ι] (f : ι → α) (i : ι) (a : α) :
    tally p (update f i a) + (if p (f i) then 1 else 0) =
      tally p f + if p a then 1 else 0 :=
  total_update (fun a => if p a then 1 else 0) f i a

theorem tally_congr {q : β → Prop} [DecidablePred q] {g : ι → β}
    (h : ∀ i, p (f i) ↔ q (g i)) : tally p f = tally q g :=
  Finset.sum_congr rfl fun i _ => by simp only [h i]

theorem total_eq_tally {w : β → Nat} {f : ι → β} {g : ι → α}
    (h : ∀ i, w (f i) = if p (g i) then 1 else 0) : total w f = tally p g :=
  Finset.sum_congr rfl fun i _ => h i

theorem tally_pos [DecidableEq ι] {i : ι} (h : p (f i)) : 0 < tally p f := by
  have := le_total (fun a => if p a then 1 else 0) f i
  rw [if_pos h] at this
  exact this

theorem tally_eq_zero (h : ∀ i, ¬ p (f i)) : tally p f = 0 :=
  total_eq_zero (w := fun a => if p a then 1 else 0) fun i => if_neg (h i)

-- the sums are never to be written out
attribute [irreducible] tally total

end

end Xv6
