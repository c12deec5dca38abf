import Mathlib

/-!
# Queues made of levels

`joined n f` is the queue of the levels `f 0, …, f (n - 1)`, one after the other.  Its first
element is the head of the first level that is not empty (`head?_joined`), and moving the head of
a level behind the level above leaves it as it is (`joined_promote`).
-/

namespace Xv6

open List

variable {α : Type} {n : Nat} {f g : Nat → List α}

def joined (n : Nat) (f : Nat → List α) : List α := (List.range n).flatMap f

theorem joined_succ : joined (n + 1) f = joined n f ++ f n := by
  simp [joined, range_succ]

theorem joined_congr (h : ∀ i < n, g i = f i) : joined n g = joined n f :=
  flatMap_congr fun i hi => h i (mem_range.1 hi)

theorem mem_joined {x : α} : x ∈ joined n f ↔ ∃ i < n, x ∈ f i := by
  simp [joined]

theorem joined_nodup (h : ∀ i < n, (f i).Nodup)
    (hd : ∀ i j x, x ∈ f i → x ∈ f j → i = j) : (joined n f).Nodup := by
  rw [joined, nodup_flatMap]
  refine ⟨fun i hi => h i (mem_range.1 hi), nodup_range.imp fun hij x hx hy => hij ?_⟩
  exact hd _ _ x hx hy

theorem head?_joined : (joined n f).head? = (List.range n).findSome? fun i => (f i).head? :=
  head?_flatMap

/-- Levels that lose nothing. -/
theorem joined_sublist (h : ∀ i < n, (f i).Sublist (g i)) : (joined n f).Sublist (joined n g) := by
  induction n with
  | zero => exact .refl _
  | succ n ih =>
    rw [joined_succ, joined_succ]
    exact (ih fun i hi => h i (by omega)).append (h n (by omega))

theorem level_sublist {i : Nat} (hi : i < n) : (f i).Sublist (joined n f) := by
  induction n with
  | zero => omega
  | succ n ih =>
    rw [joined_succ]
    by_cases hin : i = n
    · subst hin
      exact sublist_append_right _ _
    · exact (ih (by omega)).trans (sublist_append_left _ _)

theorem joined_promote {i : Nat} {x : α} {l : List α} (h0 : 0 < i) (hi : i < n)
    (hf : f i = x :: l) (hi' : g i = l) (hup : g (i - 1) = f (i - 1) ++ [x])
    (hg : ∀ j, j ≠ i → j ≠ i - 1 → g j = f j) : joined n g = joined n f := by
  induction n with
  | zero => omega
  | succ n ih =>
    rw [joined_succ, joined_succ]
    by_cases hin : i = n
    · obtain ⟨k, rfl⟩ : ∃ k, n = k + 1 := ⟨n - 1, by omega⟩
      subst hin
      rw [joined_succ, joined_succ, hf, hi', show k = k + 1 - 1 from rfl, hup,
        joined_congr fun j hj => hg j (by omega) (by omega)]
      simp
    · rw [ih (by omega), hg n (by omega) (by omega)]

end Xv6
