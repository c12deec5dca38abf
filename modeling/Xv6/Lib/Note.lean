import Xv6.Lib.Run

/-!
# Programs that note what they do

`StateT (σ × Finset γ) (Except ε)`: a program over the state `σ` that notes down elements of `γ`
on the way.  `Erases m' m` says that `m'` without its notes is `m`.
-/

namespace Xv6

variable {σ ε γ α β : Type}

/-- A program that notes nothing. -/
def lift (m : StateT σ (Except ε) α) : StateT (σ × Finset γ) (Except ε) α := fun x =>
  (fun r => (r.1, r.2, x.2)) <$> m x.1

def note [DecidableEq γ] (c : γ) : StateT (σ × Finset γ) (Except ε) Unit :=
  modify fun x => (x.1, insert c x.2)

/-- `m'` does what `m` does, whatever is noted already. -/
def Erases (m' : StateT (σ × Finset γ) (Except ε) α) (m : StateT σ (Except ε) α) : Prop :=
  ∀ s l, (fun r => (r.1, r.2.1)) <$> m' (s, l) = m s

variable {m : StateT σ (Except ε) α}

namespace Erases

theorem lift (m : StateT σ (Except ε) α) : Erases (γ := γ) (Xv6.lift m) m := by
  intro s l
  show (fun r => (r.1, r.2.1)) <$> ((fun r => (r.1, r.2, l)) <$> m s) = m s
  cases m s with
  | error e => rfl
  | ok x => rfl

theorem pure (a : α) : Erases (γ := γ) (Pure.pure a) (Pure.pure a : StateT σ (Except ε) α) :=
  fun _ _ => rfl

theorem throw (e : ε) : Erases (γ := γ) (MonadExceptOf.throw e)
    (MonadExceptOf.throw e : StateT σ (Except ε) α) :=
  fun _ _ => rfl

theorem bind {m' : StateT (σ × Finset γ) (Except ε) α}
    {k' : α → StateT (σ × Finset γ) (Except ε) β} {k : α → StateT σ (Except ε) β}
    (h : Erases m' m) (hk : ∀ a, Erases (k' a) (k a)) : Erases (m' >>= k') (m >>= k) := by
  intro s l
  have hs := h s l
  show (fun r => (r.1, r.2.1)) <$> (m' (s, l) >>= fun x => k' x.1 x.2) = (m s >>= fun x => k x.1 x.2)
  rw [← hs]
  cases m' (s, l) with
  | error e => rfl
  | ok x => exact hk x.1 x.2.1 x.2.2

theorem note [DecidableEq γ] (m : StateT σ (Except ε) Unit) (c : γ) :
    Erases (Xv6.lift m >>= fun _ => Xv6.note c) m := by
  intro s l
  show (fun r => (r.1, r.2.1)) <$> (((fun r => (r.1, r.2, l)) <$> m s) >>= fun x =>
    Xv6.note c x.2) = m s
  cases m s with
  | error e => rfl
  | ok x => rfl

theorem ite {c : Prop} [Decidable c] {m₁' m₂' : StateT (σ × Finset γ) (Except ε) α}
    {m₁ m₂ : StateT σ (Except ε) α} (h₁ : Erases m₁' m₁) (h₂ : Erases m₂' m₂) :
    Erases (if c then m₁' else m₂') (if c then m₁ else m₂) := by
  split
  · exact h₁
  · exact h₂

end Erases

/-! ## Postconditions -/

section
variable {Q : ε → Prop} {P : α → σ → Prop} {P' : β → σ × Finset γ → Prop} {s : σ} {l : Finset γ}

theorem Run.lift_bind {k : α → StateT (σ × Finset γ) (Except ε) β}
    (h : Run Q P m s) (hk : ∀ a s', P a s' → Run Q P' (k a) (s', l)) :
    Run Q P' (lift m >>= k) (s, l) := by
  refine Run.bind (P := fun a x => P a x.1 ∧ x.2 = l) ?_ ?_
  · unfold Run at h ⊢
    show Post Q _ ((fun r => (r.1, r.2, l)) <$> m s)
    cases hm : m s with
    | error e =>
      rw [hm] at h
      exact h
    | ok x =>
      rw [hm] at h
      exact ⟨h, rfl⟩
  · rintro a ⟨s', l'⟩ ⟨hp, rfl⟩
    exact hk a s' hp

/-- What the program with notes does, the one without them does. -/
theorem Erases.run {m' : StateT (σ × Finset γ) (Except ε) β} {m : StateT σ (Except ε) β}
    (h : Erases m' m) (hr : Run Q P' m' (s, l)) : Run Q (fun a s' => ∃ l', P' a (s', l')) m s := by
  have hs := h s l
  unfold Run at hr ⊢
  rw [← hs]
  cases hm : m' (s, l) with
  | error e =>
    rw [hm] at hr
    exact hr
  | ok x =>
    rw [hm] at hr
    exact ⟨x.2.2, hr⟩

end

end Xv6
