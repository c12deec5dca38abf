import Mathlib

/-!
# Labelled transition systems

A run takes steps `step s a s'`; `Reach` is what runs get to.  `restrict ok`
keeps the steps that meet a condition on the state before the step, so
`Reach (S.restrict ok)` is what runs get to whose steps all meet `ok`.
An invariant is proved once per step (`Reach.invariant`).
-/

namespace Xv6

structure System (σ α : Type) where
  init : σ → Prop
  step : σ → α → σ → Prop

namespace System

variable {σ α : Type}

/-- The states that runs of `S` get to. -/
inductive Reach (S : System σ α) : σ → Prop
  | init {s : σ} : S.init s → Reach S s
  | step {s : σ} {a : α} {s' : σ} : Reach S s → S.step s a s' → Reach S s'

/-- Only the steps that meet `ok`. -/
def restrict (S : System σ α) (ok : σ → α → Prop) : System σ α where
  init := S.init
  step s a s' := ok s a ∧ S.step s a s'

/-- The runs that start in the state `s`. -/
def startAt (S : System σ α) (s : σ) : System σ α where
  init := (· = s)
  step := S.step

variable {S : System σ α} {s : σ}

theorem Reach.of_startAt {s' : σ} (hs : S.Reach s) (h : (S.startAt s).Reach s') : S.Reach s' := by
  induction h with
  | init h => exact h ▸ hs
  | step _ h ih => exact .step ih h

theorem Reach.of_restrict {ok : σ → α → Prop} (h : (S.restrict ok).Reach s) : S.Reach s := by
  induction h with
  | init h => exact .init h
  | step _ h ih => exact .step ih h.2

theorem Reach.restrict {ok : σ → α → Prop} (hok : ∀ s a, ok s a)
    (h : S.Reach s) : (S.restrict ok).Reach s := by
  induction h with
  | init h => exact .init h
  | step _ h ih => exact .step ih ⟨hok _ _, h⟩

/-- Holds at the start and kept by every step from a reachable state: holds always. -/
theorem Reach.invariant {P : σ → Prop} (h0 : ∀ s, S.init s → P s)
    (hs : ∀ s a s', S.Reach s → P s → S.step s a s' → P s') (h : S.Reach s) : P s := by
  induction h with
  | init h => exact h0 _ h
  | step hr h ih => exact hs _ _ _ hr ih h

/-- Take the moves one after the other, as long as they are possible. -/
def follow {β : Type} (next : σ → β → Option σ) : List β → σ → Option σ
  | [], s => some s
  | b :: l, s => (next s b).bind (follow next l)

/-- A run that is computed ends in a reachable state. -/
theorem Reach.follow {β : Type} {next : σ → β → Option σ}
    (hnext : ∀ s b s', next s b = some s' → ∃ a, S.step s a s') {l : List β} {s' : σ}
    (hs : S.Reach s) (h : System.follow next l s = some s') : S.Reach s' := by
  induction l generalizing s with
  | nil =>
    cases h
    exact hs
  | cons b l ih =>
    obtain ⟨t, ht, h⟩ := Option.bind_eq_some_iff.1 h
    obtain ⟨a, ha⟩ := hnext s b t ht
    exact ih (.step hs ha) h

/-- The system with a history beside its state, which the steps do not look at. -/
def withGhost {γ : Type} (S : System σ α) (g₀ : γ) (upd : σ → α → σ → γ → γ) : System (σ × γ) α where
  init x := S.init x.1 ∧ x.2 = g₀
  step x a y := S.step x.1 a y.1 ∧ y.2 = upd x.1 a y.1 x.2

theorem Reach.of_ghost {γ : Type} {g₀ : γ} {upd : σ → α → σ → γ → γ} {x : σ × γ}
    (h : (S.withGhost g₀ upd).Reach x) : S.Reach x.1 := by
  induction h with
  | init h => exact .init h.1
  | step _ h ih => exact .step ih h.1

theorem Reach.to_ghost {γ : Type} (g₀ : γ) (upd : σ → α → σ → γ → γ)
    (h : S.Reach s) : ∃ g, (S.withGhost g₀ upd).Reach (s, g) := by
  induction h with
  | init h => exact ⟨g₀, .init ⟨h, rfl⟩⟩
  | @step s a s' _ h ih =>
    obtain ⟨g, hg⟩ := ih
    exact ⟨upd s a s' g, .step hg ⟨h, rfl⟩⟩

end System

end Xv6
