import Mathlib

/-!
# Circular linked lists

`Path next a l z`: following `next` from `a` one meets the elements of `l` and then `z`.  `Circle
next l`: the elements of `l` are linked in this order and the last one leads back to the first.
A program that changes links behind one node `p` leaves a circle if what now follows `p` is a path
back to the first node (`Circle.relink`).
-/

namespace Xv6

open List

variable {α : Type} {next next' : α → α} {a p x z : α} {l l₁ l₂ : List α}

def Path (next : α → α) (a : α) (l : List α) (z : α) : Prop :=
  List.IsChain (fun x y => next x = y) (a :: (l ++ [z]))

namespace Path

theorem nil_iff : Path next a [] z ↔ next a = z := by
  simp [Path]

theorem cons_iff : Path next a (x :: l) z ↔ next a = x ∧ Path next x l z :=
  isChain_cons_cons

theorem append_iff : Path next a (l₁ ++ p :: l₂) z ↔ Path next a l₁ p ∧ Path next p l₂ z := by
  induction l₁ generalizing a with
  | nil => rw [nil_append, cons_iff, nil_iff]
  | cons x l₁ ih => rw [cons_append, cons_iff, cons_iff, ih, and_assoc]

theorem congr (h : Path next a l z) (ha : next' p = next a) (hl : ∀ x ∈ l, next' x = next x) :
    Path next' p l z := by
  induction l generalizing a p with
  | nil => exact nil_iff.2 (ha.trans (nil_iff.1 h))
  | cons x l ih =>
    obtain ⟨hx, h⟩ := cons_iff.1 h
    refine cons_iff.2 ⟨ha.trans hx, ih h (hl x mem_cons_self) fun y hy => ?_⟩
    exact hl y (mem_cons_of_mem x hy)

theorem next_eq (h : Path next a l z) : next a = (l ++ [z]).head (by simp) := by
  cases l with
  | nil => exact nil_iff.1 h
  | cons x l => exact (cons_iff.1 h).1

theorem map_eq (h : Path next a l z) : (a :: l).map next = l ++ [z] := by
  induction l generalizing a with
  | nil => exact congrArg (· :: []) (nil_iff.1 h)
  | cons x l ih =>
    obtain ⟨hx, h⟩ := cons_iff.1 h
    rw [map_cons, hx, ih h]
    rfl

end Path

def Circle (next : α → α) : List α → Prop
  | [] => False
  | a :: l => Path next a l a

namespace Circle

theorem singleton (h : next a = a) : Circle next [a] := Path.nil_iff.2 h

/-- The way from a node of the circle around to itself. -/
theorem path (h : Circle next (l₁ ++ p :: l₂)) : Path next p (l₂ ++ l₁) p := by
  cases l₁ with
  | nil =>
    rw [append_nil]
    exact h
  | cons a l₁ =>
    obtain ⟨h₁, h₂⟩ := Path.append_iff.1 h
    exact Path.append_iff.2 ⟨h₂, h₁⟩

/-- The way from a node to the end of the list and back to its head. -/
theorem path_tail (h : Circle next (a :: l)) (hl : a :: l = l₁ ++ p :: l₂) : Path next p l₂ a := by
  cases l₁ with
  | nil =>
    cases hl
    exact h
  | cons b l₁ =>
    cases hl
    exact (Path.append_iff.1 h).2

/-- The links behind `p` are changed. -/
theorem relink (h : Circle next (a :: l)) (hl : a :: l = l₁ ++ p :: l₂) {l₂' : List α}
    (hkeep : ∀ x ∈ l₁, next' x = next x) (hp : Path next' p l₂' a) :
    Circle next' (l₁ ++ p :: l₂') := by
  cases l₁ with
  | nil =>
    cases hl
    exact hp
  | cons b l₁ =>
    cases hl
    obtain ⟨h₁, -⟩ := Path.append_iff.1 h
    refine Path.append_iff.2 ⟨h₁.congr (hkeep a mem_cons_self) fun x hx => ?_, hp⟩
    exact hkeep x (mem_cons_of_mem a hx)

theorem congr (h : Circle next l) (hl : ∀ x ∈ l, next' x = next x) : Circle next' l := by
  cases l with
  | nil => exact h
  | cons a l =>
    exact Path.congr h (hl a mem_cons_self) fun x hx => hl x (mem_cons_of_mem a hx)

theorem next_mem (h : Circle next l) (hp : p ∈ l) : next p ∈ l := by
  obtain ⟨l₁, l₂, rfl⟩ := append_of_mem hp
  rw [h.path.next_eq]
  have hmem := head_mem (l := l₂ ++ l₁ ++ [p]) (by simp)
  simp only [mem_append, mem_cons, mem_singleton, not_mem_nil] at hmem ⊢
  tauto

/-- The node before one that is not the first. -/
theorem exists_prev (h : Circle next (a :: l)) (hx : x ∈ l) :
    ∃ l₁ q l₂, a :: l = l₁ ++ q :: x :: l₂ ∧ next q = x := by
  obtain ⟨k₁, k₂, rfl⟩ := append_of_mem hx
  rcases eq_nil_or_concat k₁ with rfl | ⟨k₁, q, rfl⟩
  · exact ⟨[], a, k₂, rfl, (Path.cons_iff.1 h).1⟩
  · refine ⟨a :: k₁, q, k₂, by simp, ?_⟩
    have h' : Path next a (k₁.concat q ++ x :: k₂) a := h
    rw [concat_eq_append, append_assoc] at h'
    exact (Path.cons_iff.1 (Path.append_iff.1 h').2).1

theorem next_inj (h : Circle next l) (hl : l.Nodup) {q : α} (hp : p ∈ l) (hq : q ∈ l)
    (he : next p = next q) : p = q := by
  cases l with
  | nil => exact absurd hp not_mem_nil
  | cons a l =>
    have hnodup : ((a :: l).map next).Nodup := by
      rw [Path.map_eq h]
      exact (perm_append_singleton a l).nodup_iff.2 hl
    exact inj_on_of_nodup_map hnodup hp hq he

end Circle

end Xv6
