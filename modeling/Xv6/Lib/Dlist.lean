import Mathlib

/-!
# Doubly linked lists

`Dlist next prev a l z`: following `next` from the node `a` one meets the nodes of `l` and then
`z`, and `prev` leads back.  A circular list with a head node `h` is `Dlist next prev h l h`.

`Dlist.unlink` takes a node out, `Dlist.insert` puts one in behind `a`, each with the stores a
program makes; `walk` is the loop that looks for a node.
-/

namespace Xv6

open Function List

variable {α : Type}

/-- Two neighbours. -/
def Linked (next prev : α → α) (x y : α) : Prop := next x = y ∧ prev y = x

def Dlist (next prev : α → α) (a : α) (l : List α) (z : α) : Prop :=
  List.IsChain (Linked next prev) (a :: (l ++ [z]))

variable {next prev : α → α} {a x z : α} {l l₁ l₂ : List α}

theorem Dlist.nil (h : Linked next prev a z) : Dlist next prev a [] z := by
  simpa [Dlist] using h

theorem Dlist.next_eq (h : Dlist next prev a (x :: l) z) : next a = x :=
  (isChain_cons_cons.1 h).1.1

theorem Dlist.tail (h : Dlist next prev a (x :: l) z) : Dlist next prev x l z :=
  (isChain_cons_cons.1 h).2

theorem Dlist.reverse (h : Dlist next prev a l z) : Dlist prev next z l.reverse a := by
  unfold Dlist at *
  rw [← isChain_reverse] at h
  simp only [reverse_cons, reverse_append, reverse_nil, nil_append,
    singleton_append, cons_append] at h
  exact h.imp fun _ _ hxy => ⟨hxy.2, hxy.1⟩

theorem isChain_snoc_imp {R S : α → α → Prop} (h : List.IsChain R (l ++ [z]))
    (hRS : ∀ u ∈ l, ∀ v ∈ l ++ [z], R u v → S u v) : List.IsChain S (l ++ [z]) := by
  induction l with
  | nil => exact isChain_singleton z
  | cons x l ih =>
    rw [cons_append, isChain_cons] at h ⊢
    refine ⟨fun y hy => ?_, ih h.2 fun u hu v hv => ?_⟩
    · exact hRS x mem_cons_self y (mem_cons_of_mem x (mem_of_head? hy)) (h.1 y hy)
    · exact hRS u (mem_cons_of_mem x hu) v (mem_cons_of_mem x hv)

section
variable [DecidableEq α]

/-- `x->next->prev = x->prev; x->prev->next = x->next` -/
theorem Dlist.unlink (h : Dlist next prev a (l₁ ++ x :: l₂) z) (ha : x ≠ a) (hz : x ≠ z)
    (h₁ : x ∉ l₁) (h₂ : x ∉ l₂) :
    Dlist (update next (prev x) (next x)) (update prev (next x) (prev x))
      a (l₁ ++ l₂) z := by
  have hchain : List.IsChain (Linked next prev) ((a :: l₁) ++ x :: (l₂ ++ [z])) := by
    simpa [Dlist] using h
  obtain ⟨hfst, hsnd, hlast⟩ := isChain_append.1 hchain
  obtain ⟨y, hy⟩ : ∃ y, (a :: l₁).getLast? = some y :=
    ⟨_, getLast?_eq_some_getLast (cons_ne_nil a l₁)⟩
  obtain ⟨w, r, hw⟩ : ∃ w r, l₂ ++ [z] = w :: r := exists_cons_of_ne_nil (by simp)
  have hyx : Linked next prev y x := hlast y hy x rfl
  have hxw : Linked next prev x w := by
    rw [hw] at hsnd
    exact (isChain_cons_cons.1 hsnd).1
  rw [hyx.2, hxw.1]
  -- neighbours other than `y, x` and `x, w` keep their links
  have hkeep : ∀ m : List α, x ∉ m → List.IsChain (Linked next prev) m →
      List.IsChain (Linked (update next y w) (update prev w y)) m := by
    refine fun m hm => List.IsChain.imp_of_mem_imp fun u v hu hv huv => ?_
    have huy : u ≠ y := by
      rintro rfl
      exact hm ((huv.1.symm.trans hyx.1) ▸ hv)
    have hvw : v ≠ w := by
      rintro rfl
      exact hm ((huv.2.symm.trans hxw.2) ▸ hu)
    exact ⟨by rw [update_of_ne huy, huv.1], by rw [update_of_ne hvw, huv.2]⟩
  show List.IsChain _ (a :: (l₁ ++ l₂ ++ [z]))
  rw [append_assoc, ← cons_append, isChain_append]
  refine ⟨hkeep _ (by simp [ha, h₁]) hfst, hkeep _ (by simp [hz, h₂]) hsnd.tail, ?_⟩
  intro u hu v hv
  rw [hw] at hv
  cases hy.symm.trans hu
  cases hv
  exact ⟨update_self .., update_self ..⟩

/-- `x->next = a->next; x->prev = a; a->next->prev = x; a->next = x` -/
theorem Dlist.insert (h : Dlist next prev a l z) (hx : x ∉ l) (hxa : x ≠ a) (hxz : x ≠ z)
    (ha : a ∉ l) :
    Dlist (update (update next x (next a)) a x)
      (update (update prev x a) (next a) x) a (x :: l) z := by
  obtain ⟨w, r, hw⟩ : ∃ w r, l ++ [z] = w :: r := exists_cons_of_ne_nil (by simp)
  have hxw : x ≠ w := by
    rintro rfl
    have : x ∈ l ++ [z] := by rw [hw]; exact mem_cons_self
    simp [hx, hxz] at this
  unfold Dlist at h ⊢
  rw [cons_append, hw]
  rw [hw, isChain_cons_cons] at h
  obtain ⟨haw, hrest⟩ := h
  rw [haw.1, isChain_cons_cons, isChain_cons_cons]
  refine ⟨⟨update_self .., ?_⟩, ⟨?_, update_self ..⟩, ?_⟩
  · rw [update_of_ne hxw, update_self]
  · rw [update_of_ne hxa, update_self]
  · rw [← hw] at hrest ⊢
    refine isChain_snoc_imp hrest fun u hu v hv huv => ?_
    have hua : u ≠ a := ne_of_mem_of_not_mem hu ha
    have hvw : v ≠ w := by
      rintro rfl
      exact hua (huv.2.symm.trans haw.2)
    have hvx : v ≠ x := by
      rintro rfl
      simp [hx, hxz] at hv
    rw [Linked, update_of_ne hua, update_of_ne (ne_of_mem_of_not_mem hu hx),
      update_of_ne hvw, update_of_ne hvx]
    exact huv

/-- `for (x = first; x != stop; x = step(x)) if (test(x)) break`; `none` when the fuel runs
out. -/
def seek (step : α → α) (stop : α) (test : α → Bool) : (fuel : Nat) → α → Option (Option α)
  | 0, _ => none
  | fuel + 1, x =>
    if x = stop then some none
    else if test x then some (some x)
    else seek step stop test fuel (step x)

theorem Dlist.seek_eq (h : Dlist next prev a l z) (hz : z ∉ l) (test : α → Bool) {fuel : Nat}
    (hf : l.length < fuel) : seek next z test fuel (next a) = some (l.find? test) := by
  induction l generalizing a fuel with
  | nil =>
    have hlink : Linked next prev a z := by simpa [Dlist] using h
    obtain ⟨fuel, rfl⟩ : ∃ k, fuel = k + 1 := ⟨fuel - 1, by simp at hf; omega⟩
    rw [seek, if_pos hlink.1]
    rfl
  | cons x l ih =>
    obtain ⟨fuel, rfl⟩ : ∃ k, fuel = k + 1 := ⟨fuel - 1, by simp at hf; omega⟩
    rw [mem_cons, not_or] at hz
    rw [h.next_eq, seek, if_neg (Ne.symm hz.1), find?_cons]
    cases test x with
    | true => rfl
    | false => exact ih h.tail hz.2 (by simpa using hf)

end

end Xv6
