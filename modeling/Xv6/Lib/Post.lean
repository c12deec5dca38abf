import Xv6.Lib.Chain

/-!
# Postconditions of programs that can fail

`Post Q P r`: when `r` fails its error has `Q`, and otherwise its result has
`P`.  One rule per way a program is put together; the loop rules carry an
invariant of the elements still to come and the state.
-/

namespace Xv6

def Post {ε α : Type} (Q : ε → Prop) (P : α → Prop) : Except ε α → Prop
  | .error e => Q e
  | .ok x => P x

section
variable {ε α β σ : Type} {Q : ε → Prop}
variable {r : Except ε α} {P : α → Prop}

theorem Post.of_ok (h : Post Q P r) {x : α} (hr : r = .ok x) : P x := by
  rw [hr] at h
  exact h

theorem Post.of_error (h : Post Q P r) {e : ε} (hr : r = .error e) : Q e := by
  rw [hr] at h
  exact h

theorem map_ok {f : α → β} {y : β} (h : r.map f = .ok y) : ∃ x, r = .ok x ∧ y = f x := by
  cases r with
  | error e => cases h
  | ok x => cases h; exact ⟨x, rfl, rfl⟩

theorem bind_ok {k : α → Except ε β} {y : β} (h : (r >>= k) = .ok y) :
    ∃ x, r = .ok x ∧ k x = .ok y := by
  cases r with
  | error e => cases h
  | ok x => exact ⟨x, rfl, h⟩

/-- What the evaluation of a closed program shows. -/
theorem exists_ok {p : α → Bool} (h : r.toOption.any p = true) : ∃ x, r = .ok x ∧ p x = true := by
  cases r with
  | error e => cases h
  | ok x => exact ⟨x, rfl, h⟩

theorem map_error {f : α → β} {e : ε} (h : r.map f = .error e) : r = .error e := by
  cases r with
  | error e => cases h; rfl
  | ok x => cases h

theorem Post.mono {P' : α → Prop} (h : Post Q P r) (hP : ∀ x, P x → P' x) : Post Q P' r := by
  cases r with
  | error e => exact h
  | ok x => exact hP x h

theorem Post.weaken {Q' : ε → Prop} (h : Post Q P r) (hQ : ∀ e, Q e → Q' e) : Post Q' P r := by
  cases r with
  | error e => exact hQ e h
  | ok x => exact h

theorem Post.bind {P' : β → Prop} {k : α → Except ε β}
    (h : Post Q P r) (hk : ∀ x, P x → Post Q P' (k x)) : Post Q P' (r >>= k) := by
  cases r with
  | error e => exact h
  | ok x => exact hk x h

theorem Post.map {P : β → Prop} {f : α → β} (h : Post Q (fun x => P (f x)) r) :
    Post Q P (r.map f) := by
  cases r with
  | error e => exact h
  | ok x => exact h

theorem Post.foldlM {body : σ → α → Except ε σ} (I : List α → σ → Prop)
    (hb : ∀ x l s, I (x :: l) s → Post Q (I l) (body s x)) (l : List α) (s : σ) (h : I l s) :
    Post Q (I []) (l.foldlM body s) := by
  induction l generalizing s with
  | nil => exact h
  | cons x l ih =>
    rw [List.foldlM_cons]
    exact (hb x l s h).bind ih

/-- The loop with early return: `I` while it goes on, `P` of what it returns. -/
theorem Post.forIn {body : α → σ → Except ε (Option β × σ)} {P : Option β × σ → Prop}
    (I : List α → σ → Prop)
    (hb : ∀ x l s, I (x :: l) s → Post Q (fun r => (r.1 = none → I l r.2) ∧ (r.1 ≠ none → P r))
      (body x s)) (hnil : ∀ s, I [] s → P (none, s)) (l : List α) (s : σ) (h : I l s) :
    Post Q P (forIn body l s) := by
  induction l generalizing s with
  | nil => exact hnil s h
  | cons x l ih =>
    have hx := hb x l s h
    unfold Xv6.forIn
    cases hr : body x s with
    | error e =>
      rw [hr] at hx
      exact hx
    | ok r =>
      obtain ⟨v, s'⟩ := r
      rw [hr] at hx
      cases v with
      | none => exact ih s' (hx.1 rfl)
      | some b => exact hx.2 (by simp)

end

end Xv6
