import Mathlib

/-!
# Lists threaded through a `next` map

`Chain next h l`: starting at the pointer `h` and following `next`, one meets
exactly the cells of `l` and then the null pointer.  A chain is determined by
its head (`Chain.unique`), so it never visits a cell twice (`Chain.nodup`);
`walk` computes it.

Writing `next` outside the cells of a chain leaves it alone (`Chain.update`);
the two splices of an intrusive queue are `Chain.snoc` (append at the last
cell) and `Chain.unlink` (drop an inner cell).

`forEach` is the loop `for (a = h; a != 0; a = a->next) body`, where `body`
may change the store, return early, or fail; the fuel is the number of cells.
Over a chain whose links the body keeps it is the loop over the list
(`forEach_eq_forIn`).
-/

namespace Xv6

open List

variable {α : Type}

/-- `h` points at the first cell of the null-terminated list `l`. -/
def Chain (next : α → Option α) : Option α → List α → Prop
  | h, [] => h = none
  | h, a :: l => h = some a ∧ Chain next (next a) l

@[simp] theorem chain_nil (next : α → Option α) (h : Option α) : Chain next h [] ↔ h = none :=
  Iff.rfl

@[simp] theorem chain_cons (next : α → Option α) (h : Option α) (a : α) (l : List α) :
    Chain next h (a :: l) ↔ h = some a ∧ Chain next (next a) l :=
  Iff.rfl

variable {next : α → Option α} {h : Option α} {l : List α}

theorem Chain.unique {l' : List α} (hl : Chain next h l) (hl' : Chain next h l') : l = l' := by
  induction l generalizing h l' with
  | nil =>
    cases l' with
    | nil => rfl
    | cons b l' =>
      rw [chain_nil] at hl
      rw [hl] at hl'
      simp at hl'
  | cons a l ih =>
    obtain ⟨rfl, hl⟩ := hl
    cases l' with
    | nil => simp at hl'
    | cons b l' =>
      obtain ⟨hab, hl'⟩ := hl'
      cases hab
      rw [ih hl hl']

theorem Chain.head_eq (hl : Chain next h l) : h = l.head? := by
  cases l with
  | nil => exact hl
  | cons a l => exact hl.1

theorem Chain.suffix {l₁ : List α} {a : α} {l₂ : List α}
    (hl : Chain next h (l₁ ++ a :: l₂)) : Chain next (next a) l₂ := by
  induction l₁ generalizing h with
  | nil => exact hl.2
  | cons b l₁ ih => exact ih hl.2

/-- The chain is closed under `next`. -/
theorem Chain.mem_next {a b : α}
    (hl : Chain next h l) (ha : a ∈ l) (hb : next a = some b) : b ∈ l := by
  obtain ⟨l₁, l₂, rfl⟩ := append_of_mem ha
  have hrest := hl.suffix
  rw [hb] at hrest
  cases l₂ with
  | nil => cases hrest
  | cons c l₂ =>
    cases hrest.1
    simp

/-- A null-terminated chain is acyclic: a repeated cell would start two suffixes of
different lengths. -/
theorem Chain.nodup (hl : Chain next h l) : l.Nodup := by
  induction l generalizing h with
  | nil => exact nodup_nil
  | cons a l ih =>
    refine nodup_cons.2 ⟨fun ha => ?_, ih hl.2⟩
    obtain ⟨l₁, l₂, rfl⟩ := append_of_mem ha
    have h₂ : l₁ ++ a :: l₂ = l₂ := hl.2.unique (Chain.suffix hl.2)
    have := congrArg List.length h₂
    simp at this
    omega

theorem Chain.length_le [Fintype α] (hl : Chain next h l) : l.length ≤ Fintype.card α :=
  hl.nodup.length_le_card

theorem Chain.congr {next' : α → Option α}
    (hl : Chain next h l) (hn : ∀ a ∈ l, next' a = next a) : Chain next' h l := by
  induction l generalizing h with
  | nil => exact hl
  | cons a l ih =>
    refine ⟨hl.1, ?_⟩
    rw [hn a mem_cons_self]
    exact ih hl.2 fun b hb => hn b (mem_cons_of_mem a hb)

/-- The cells met from `h` on, at most `n` of them. -/
def walk (next : α → Option α) : Nat → Option α → List α
  | _, none => []
  | 0, some _ => []
  | n + 1, some a => a :: walk next n (next a)

theorem Chain.walk_eq (hl : Chain next h l) {n : Nat} (hn : l.length ≤ n) : walk next n h = l := by
  induction l generalizing h n with
  | nil =>
    rw [chain_nil] at hl
    subst hl
    cases n <;> rfl
  | cons a l ih =>
    obtain ⟨rfl, hl⟩ := hl
    cases n with
    | zero => simp at hn
    | succ n => rw [walk, ih hl (by simpa using hn)]

/-! ## Splices -/

section
variable [DecidableEq α]

theorem Chain.update (hl : Chain next h l)
    {a : α} (ha : a ∉ l) (v : Option α) : Chain (Function.update next a v) h l := by
  refine hl.congr fun b hb => ?_
  rw [Function.update_of_ne]
  rintro rfl
  exact ha hb

/-- Append `p` behind the last cell. -/
theorem Chain.snoc {t p : α} (hl : Chain next h l) (ht : l.getLast? = some t) (hp : p ∉ l) :
    Chain (Function.update (Function.update next t (some p)) p none) h (l ++ [p]) := by
  induction l generalizing h with
  | nil => simp at ht
  | cons a l ih =>
    have hpa : a ≠ p := fun e => hp (e ▸ mem_cons_self)
    have hpl : p ∉ l := fun e => hp (mem_cons_of_mem a e)
    refine ⟨hl.1, ?_⟩
    rw [Function.update_of_ne hpa]
    cases l with
    | nil =>
      have : a = t := by simpa using ht
      subst this
      simp
    | cons b l =>
      have hta : t ∈ b :: l := mem_of_getLast? (by simpa [getLast?_cons_cons] using ht)
      have hne : a ≠ t := by
        rintro rfl
        exact (nodup_cons.1 hl.nodup).1 hta
      rw [Function.update_of_ne hne]
      exact ih hl.2 (by simpa [getLast?_cons_cons] using ht) hpl

/-- Drop the cell `p` behind `q`. -/
theorem Chain.unlink {l₁ l₂ : List α} {q p : α} (hl : Chain next h (l₁ ++ q :: p :: l₂)) :
    Chain (Function.update next q (next p)) h (l₁ ++ q :: l₂) := by
  induction l₁ generalizing h with
  | nil =>
    have hnd : (q :: p :: l₂).Nodup := hl.nodup
    obtain ⟨hq, -, hp⟩ := hl
    refine ⟨hq, ?_⟩
    rw [Function.update_self]
    exact hp.update (fun hm => (nodup_cons.1 hnd).1 (mem_cons_of_mem p hm)) _
  | cons a l₁ ih =>
    have hnd := hl.nodup
    have hne : a ≠ q := by
      rintro rfl
      simp at hnd
    refine ⟨hl.1, ?_⟩
    rw [Function.update_of_ne hne]
    exact ih hl.2

end

/-! ## Loops along a chain -/

section
variable {σ ε β : Type}

/-- Run `body` on the elements of a list; `some b` is an early `return b`. -/
def forIn (body : α → σ → Except ε (Option β × σ)) : List α → σ → Except ε (Option β × σ)
  | [], s => .ok (none, s)
  | a :: l, s =>
    match body a s with
    | .error e => .error e
    | .ok (some b, s') => .ok (some b, s')
    | .ok (none, s') => forIn body l s'

/-- A loop that does nothing until it comes to an element where `pick` finds something, and
returns there. -/
theorem forIn_pick {γ : Type} (body : α → σ → Except ε (Option β × σ)) (pick : α → Option γ) {s : σ}
    (hskip : ∀ x, pick x = none → body x s = .ok (none, s))
    (hstop : ∀ x y s', pick x = some y → body x s ≠ .ok (none, s')) (l : List α) :
    (l.findSome? pick = none ∧ forIn body l s = .ok (none, s)) ∨
      ∃ x ∈ l, ∃ y, pick x = some y ∧ l.findSome? pick = some y ∧ forIn body l s = body x s := by
  induction l with
  | nil => exact .inl ⟨rfl, rfl⟩
  | cons x l ih =>
    rw [forIn, findSome?_cons]
    cases hp : pick x with
    | none =>
      rw [hskip x hp]
      exact ih.imp_right fun ⟨z, hz, h⟩ => ⟨z, mem_cons_of_mem x hz, h⟩
    | some y =>
      refine .inr ⟨x, mem_cons_self, y, hp, rfl, ?_⟩
      split
      next h => exact h.symm
      next h => exact h.symm
      next s' h => exact absurd h (hstop x y s' hp)

/-- `for (a = h; a != 0; a = a->next) body`; `hang` when the fuel runs out. -/
def forEach (hang : ε) (next : σ → α → Option α) (body : α → σ → Except ε (Option β × σ)) :
    Nat → Option α → σ → Except ε (Option β × σ)
  | _, none, s => .ok (none, s)
  | 0, some _, _ => .error hang
  | n + 1, some a, s =>
    match body a s with
    | .error e => .error e
    | .ok (some b, s') => .ok (some b, s')
    | .ok (none, s') => forEach hang next body n (next s' a) s'

@[simp] theorem forEach_none (hang : ε) (next : σ → α → Option α)
    (body : α → σ → Except ε (Option β × σ)) (n : Nat) (s : σ) :
    forEach hang next body n none s = .ok (none, s) := by
  cases n <;> rfl

/-- A loop whose body keeps the links it still has to follow is the loop over the list. -/
theorem forEach_eq_forIn (hang : ε) (next : σ → α → Option α)
    (body : α → σ → Except ε (Option β × σ)) (P : σ → Prop) (l : List α)
    (hbody : ∀ a ∈ l, ∀ s s', P s → body a s = .ok (none, s') →
      P s' ∧ ∀ b ∈ l, next s' b = next s b)
    (n : Nat) (hn : l.length ≤ n) (h : Option α) (s : σ) (hs : P s) (hl : Chain (next s) h l) :
    forEach hang next body n h s = forIn body l s := by
  induction l generalizing n h s with
  | nil =>
    rw [chain_nil] at hl
    rw [hl, forEach_none, forIn]
  | cons a l ih =>
    obtain ⟨rfl, hl⟩ := hl
    cases n with
    | zero => simp at hn
    | succ n =>
      simp only [forEach, forIn]
      cases hb : body a s with
      | error e => rfl
      | ok r =>
        obtain ⟨r, s'⟩ := r
        cases r with
        | some b => rfl
        | none =>
          obtain ⟨hs', hnext⟩ := hbody a mem_cons_self s s' hs hb
          refine ih (fun b hb t t' ht h' => ?_) n (by simpa using hn) _ s' hs' ?_
          · obtain ⟨h₁, h₂⟩ := hbody b (mem_cons_of_mem a hb) t t' ht h'
            exact ⟨h₁, fun c hc => h₂ c (mem_cons_of_mem a hc)⟩
          · rw [hnext a mem_cons_self]
            exact hl.congr fun b hb => hnext b (mem_cons_of_mem a hb)

/-- Elements on which the body does nothing are passed over. -/
theorem forIn_skip (body : α → σ → Except ε (Option β × σ)) (l₁ l₂ : List α) (s : σ)
    (hb : ∀ a ∈ l₁, body a s = .ok (none, s)) : forIn body (l₁ ++ l₂) s = forIn body l₂ s := by
  induction l₁ with
  | nil => rfl
  | cons a l₁ ih =>
    simp only [cons_append, forIn, hb a mem_cons_self]
    exact ih fun b h => hb b (mem_cons_of_mem a h)

theorem forEach_skip (hang : ε) (next : σ → α → Option α)
    (body : α → σ → Except ε (Option β × σ)) (l₁ l₂ : List α) (n : Nat) (hn : l₁.length ≤ n)
    (h : Option α) (s : σ) (hl : Chain (next s) h (l₁ ++ l₂))
    (hb : ∀ a ∈ l₁, body a s = .ok (none, s)) :
    forEach hang next body n h s = forEach hang next body (n - l₁.length) l₂.head? s := by
  induction l₁ generalizing n h with
  | nil =>
    rw [hl.head_eq]
    rfl
  | cons a l₁ ih =>
    obtain ⟨rfl, hl⟩ := hl
    cases n with
    | zero => simp at hn
    | succ n =>
      simp only [forEach, hb a mem_cons_self, length_cons, Nat.add_sub_add_right]
      exact ih n (by simpa using hn) _ hl fun b h => hb b (mem_cons_of_mem a h)

theorem forIn_append (body : α → σ → Except ε (Option β × σ)) (l₁ l₂ : List α) (s : σ) :
    forIn body (l₁ ++ l₂) s =
      match forIn body l₁ s with
      | .error e => .error e
      | .ok (some b, s') => .ok (some b, s')
      | .ok (none, s') => forIn body l₂ s' := by
  induction l₁ generalizing s with
  | nil => rfl
  | cons a l₁ ih =>
    simp only [cons_append, forIn]
    cases hb : body a s with
    | error e => rfl
    | ok r =>
      obtain ⟨r, s'⟩ := r
      cases r with
      | some b => rfl
      | none => exact ih s'

end

end Xv6
