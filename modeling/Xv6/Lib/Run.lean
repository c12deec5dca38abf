import Xv6.Lib.Post

/-!
# Postconditions of programs with a state

`Run Q P m s`: the program `m`, started in `s`, fails with an error that has
`Q` or returns a value and a state that have `P`.  One rule per way a program
is put together.
-/

namespace Xv6

section
variable {σ ε α β : Type}

/-- Partial correctness from the state `s`. -/
def Run (Q : ε → Prop) (P : α → σ → Prop) (m : StateT σ (Except ε) α) (s : σ) : Prop :=
  Post Q (fun x => P x.1 x.2) (m s)

variable {Q : ε → Prop} {P : α → σ → Prop} {P' : β → σ → Prop} {s : σ}
variable {m : StateT σ (Except ε) α} {k : α → StateT σ (Except ε) β} {a : α} {s' : σ}

theorem seq_ok (h : m s = .ok (a, s')) : (m >>= k) s = k a s' := by
  show (m s >>= fun x => k x.1 x.2) = _
  rw [h]
  rfl

theorem seq_error {e : ε} (h : m s = .error e) : (m >>= k) s = .error e := by
  show (m s >>= fun x => k x.1 x.2) = _
  rw [h]
  rfl

theorem seq_get {k : σ → StateT σ (Except ε) β} : (MonadState.get >>= k) s = k s s := rfl

variable {body : α → StateT σ (Except ε) PUnit}

namespace Run

theorem of_ok (h : Run Q P m s) (hr : m s = .ok (a, s')) : P a s' :=
  Post.of_ok h hr

theorem of_error (h : Run Q P m s) {e : ε} (hr : m s = .error e) : Q e :=
  Post.of_error h hr

theorem trivial : Run (fun _ => True) (fun _ _ => True) m s := by
  unfold Run
  cases m s with
  | error e => exact True.intro
  | ok x => exact True.intro

theorem of_eq (hr : m s = .ok (a, s')) (h : P a s') : Run Q P m s := by
  unfold Run
  rw [hr]
  exact h

/-- A program that cannot fail returns. -/
theorem exists_of (h : Run (fun _ => False) P m s) : ∃ a s', m s = .ok (a, s') ∧ P a s' := by
  cases hr : m s with
  | ok r => exact ⟨r.1, r.2, rfl, h.of_ok hr⟩
  | error e => exact (h.of_error hr).elim

theorem mono {P₂ : α → σ → Prop} (h : Run Q P m s) (hp : ∀ a s', P a s' → P₂ a s') : Run Q P₂ m s :=
  Post.mono h fun x => hp x.1 x.2

/-- What a program does besides what is known of it. -/
theorem self (h : Run Q P m s) : Run Q (fun a s' => P a s' ∧ m s = .ok (a, s')) m s := by
  unfold Run
  cases hm : m s with
  | error e => exact h.of_error hm
  | ok x => exact ⟨h.of_ok hm, rfl⟩

theorem and {Q' : ε → Prop} {P₂ : α → σ → Prop} (h : Run Q P m s)
    (h' : Run Q' P₂ m s) : Run Q (fun a s' => P a s' ∧ P₂ a s') m s :=
  h.self.mono fun _ _ ⟨hp, hm⟩ => ⟨hp, h'.of_ok hm⟩

theorem error_mono {Q₂ : ε → Prop} (h : Run Q P m s) (hq : ∀ e, Q e → Q₂ e) : Run Q₂ P m s := by
  unfold Run at *
  cases hm : m s with
  | error e => rw [hm] at h; exact hq e h
  | ok x => rw [hm] at h; exact h

theorem pure (h : P a s) : Run Q P (Pure.pure a) s := h

theorem throw {e : ε} (h : Q e) : Run Q P (MonadExceptOf.throw e : StateT σ (Except ε) α) s := h

theorem bind (h : Run Q P m s) (hk : ∀ a s', P a s' → Run Q P' (k a) s') : Run Q P' (m >>= k) s :=
  Post.bind h fun x hx => hk x.1 x.2 hx

/-- After a first part whose result is known. -/
theorem bind_eq (hr : m s = .ok (a, s')) (h : Run Q P' (k a) s') : Run Q P' (m >>= k) s := by
  change Post Q _ (m s >>= fun x => k x.1 x.2)
  rw [hr]
  exact h

theorem get_bind {k : σ → StateT σ (Except ε) β} (h : Run Q P' (k s) s) :
    Run Q P' (MonadState.get >>= k) s := h

theorem modify_bind {f : σ → σ} {k : PUnit → StateT σ (Except ε) β} (h : Run Q P' (k ⟨⟩) (f s)) :
    Run Q P' (modify f >>= k) s := h

theorem modify {f : σ → σ} {P : PUnit → σ → Prop} (h : P ⟨⟩ (f s)) :
    Run Q P (modify f : StateT σ (Except ε) PUnit) s := h

theorem ite {c : Prop} [Decidable c] {n : StateT σ (Except ε) α} (ht : c → Run Q P m s)
    (hf : ¬ c → Run Q P n s) : Run Q P (if c then m else n) s := by
  split
  next h => exact ht h
  next h => exact hf h

/-- The loop over a list, with an invariant of what is still to do. -/
theorem forM (I : List α → σ → Prop)
    (hb : ∀ x l s, I (x :: l) s → Run Q (fun _ => I l) (body x) s) (l : List α) (h : I l s) :
    Run Q (fun _ => I []) (l.forM body) s := by
  induction l generalizing s with
  | nil => exact h
  | cons x l ih => exact bind (hb x l s h) fun _ _ hx => ih hx

end Run

/-! ## Programs that leave a part of the state alone -/

/-- The program does the same in the state that `g` makes of `s`, and ends in the state that `g`
makes of its last one: it neither reads nor changes what `g` does. -/
def Commutes (g : σ → σ) (m : StateT σ (Except ε) α) : Prop :=
  ∀ s, m (g s) = (m s).map fun x => (x.1, g x.2)

namespace Commutes

variable {g : σ → σ}

theorem pure (a : α) : Commutes g (Pure.pure a : StateT σ (Except ε) α) := fun _ => rfl

theorem throw (e : ε) : Commutes g (MonadExceptOf.throw e : StateT σ (Except ε) α) := fun _ => rfl

theorem bind (h : Commutes g m) (hk : ∀ a, Commutes g (k a)) : Commutes g (m >>= k) := by
  intro s
  have hs := h s
  cases hr : m s with
  | error e =>
    rw [hr] at hs
    rw [seq_error hr, seq_error hs]
    rfl
  | ok x =>
    rw [hr] at hs
    rw [seq_ok hr, seq_ok hs]
    exact hk x.1 x.2

theorem ite {c : Prop} [Decidable c] {n : StateT σ (Except ε) α} (hm : Commutes g m)
    (hn : Commutes g n) : Commutes g (if c then m else n) := by
  split
  · exact hm
  · exact hn

theorem forM (h : ∀ a, Commutes g (body a)) (l : List α) : Commutes g (l.forM body) := by
  induction l with
  | nil => exact pure _
  | cons a l ih => exact bind (h a) fun _ => ih

/-- A run in a state made by `g`, from one in the state it was made of. -/
theorem run (h : Commutes g m) {P : α → σ → Prop}
    (hr : Run Q (fun a s' => P a (g s')) m s) : Run Q P m (g s) := by
  unfold Run at *
  rw [h s]
  cases hm : m s with
  | error e => rw [hm] at hr; exact hr
  | ok x => rw [hm] at hr; exact hr

end Commutes

end

end Xv6
