import Xv6.Ide.Model

/-!
# The disk queue

`Inv s l` says that the list `l` waits at `idequeue`, that the requests that were submitted are those
that have been completed and then `l`, and that those that were started are the completed ones and the
first of `l`.  The request of a call has a number, its place in the order of submission; the call's
buffer is done as soon as so many requests have been completed.

Every step keeps it, so it holds in every run (`requests_in_order`).
-/

namespace Xv6.Ide

open Function List

/-- What `iderw` waits for. -/
def Buf.Done (b : Buf) : Prop := b.valid = true ∧ b.dirty = false

structure Inv {β π : Type} (s : State β π) (l : List β) : Prop where
  chain : Chain s.qnext s.idequeue l
  order : s.submitted = s.completed ++ l
  started : s.issued.map Prod.fst = s.completed ++ l.head?.toList
  active : ∀ b, l.head? = some b → s.issued.getLast? = some (b, command (s.buf b))
  waiting : ∀ b ∈ l, ∃ p k, s.call p = some (b, k)
  place : ∀ p b k, s.call p = some (b, k) → s.submitted[k]? = some b
  open_iff : ∀ p b k, s.call p = some (b, k) → (s.completed.length ≤ k ↔ ¬ (s.buf b).Done)
  queued : ∀ b ∈ l, ¬ (s.buf b).Done
  unique : ∀ p p' b k k', s.call p = some (b, k) → s.call p' = some (b, k') → p = p'
  returned : ∀ x ∈ s.returned, x.request < s.completed.length ∧ s.submitted[x.request]? = some x.b ∧
    x.buf.Done

section
variable {β π : Type} [DecidableEq β] [DecidableEq π] {s s' : State β π} {l : List β} {b : β}

/-! ## append -/

omit [DecidableEq π] in
/-- The loop stops at the last link. -/
theorem append_eq (l : List β) : ∀ {n : Nat} (pp : Option β), Chain s.qnext (deref s pp) l →
    l.length < n → append b n pp s = .ok (assign s (l.getLast?.or pp) b) := by
  induction l with
  | nil =>
    intro n pp hl hn
    obtain ⟨n, rfl⟩ : ∃ m, n = m + 1 := ⟨n - 1, by omega⟩
    have hnull : deref s pp = none := hl
    rw [append, hnull]
    rfl
  | cons a l ih =>
    intro n pp hl hn
    obtain ⟨n, rfl⟩ : ∃ m, n = m + 1 := ⟨n - 1, by omega⟩
    rw [length_cons] at hn
    have hhead : deref s pp = some a := hl.1
    rw [append, hhead]
    dsimp only
    rw [ih (some a) hl.2 (by omega)]
    cases l with
    | nil => rfl
    | cons c l => rw [getLast?_cons_cons, getLast?_cons, Option.some_or, Option.some_or]

omit [DecidableEq π] in
/-- The list after `iderw` has put `b` behind it. -/
theorem append_chain (hl : Chain s.qnext s.idequeue l) (hb : b ∉ l) {n : Nat} (hn : l.length < n) :
    ∃ q h, append b n none { s with qnext := update s.qnext b none } =
      .ok { s with qnext := q, idequeue := h } ∧ Chain q h (l ++ [b]) := by
  have hl' : Chain (update s.qnext b none) s.idequeue l := hl.update hb none
  have hrun := append_eq (s := { s with qnext := update s.qnext b none }) (b := b) l none hl' hn
  cases ht : l.getLast? with
  | none =>
    rw [getLast?_eq_none_iff] at ht
    subst ht
    refine ⟨_, _, hrun, rfl, ?_⟩
    show update s.qnext b none b = none
    exact update_self ..
  | some t =>
    rw [ht] at hrun
    refine ⟨_, _, hrun, ?_⟩
    have hne : t ≠ b := by
      rintro rfl
      exact hb (mem_of_getLast? ht)
    show Chain (update (update s.qnext b none) t (some b)) s.idequeue (l ++ [b])
    rw [update_comm hne.symm]
    exact hl.snoc ht hb

/-! ## The steps -/

omit [DecidableEq β] [DecidableEq π] in
theorem idestart_ok (h : idestart (some b) s = .ok ((), s')) :
    s' = { s with issued := s.issued ++ [(b, command (s.buf b))] } := by
  change (if (s.buf b).blockno ≥ FSSIZE then throw .blockno else set _ : M β π Unit) s = _ at h
  split at h
  · cases h
  · cases h
    rfl

omit [DecidableEq π] in
/-- Its request is the first of the queue, and the next one is started. -/
theorem ideintr_cases {ok : Bool} {data : List UInt8} (h : ideintr ok data s = .ok ((), s')) :
    (s.idequeue = none ∧ s' = s) ∨ ∃ b new, s.idequeue = some b ∧ new.Done ∧
      s'.buf = update s.buf b new ∧ s'.qnext = s.qnext ∧ s'.idequeue = s.qnext b ∧
      s'.call = s.call ∧ s'.submitted = s.submitted ∧ s'.completed = s.completed ++ [b] ∧
      s'.returned = s.returned ∧ s'.issued = s.issued ++
        ((s.qnext b).map fun c => (c, command (s'.buf c))).toList := by
  unfold ideintr at h
  rw [seq_get] at h
  cases hq : s.idequeue with
  | none =>
    rw [hq] at h
    cases h
    exact .inl ⟨rfl, rfl⟩
  | some b =>
    rw [hq] at h
    right
    dsimp only at h
    rw [seq_ok (a := ()) rfl] at h
    cases hn : s.qnext b with
    | none =>
      rw [hn] at h
      cases h
      refine ⟨b, _, rfl, ⟨rfl, rfl⟩, rfl, rfl, hn.symm, rfl, rfl, rfl, rfl, ?_⟩
      rw [hn]
      exact (append_nil _).symm
    | some c =>
      rw [hn] at h
      rw [idestart_ok h]
      refine ⟨b, _, rfl, ⟨rfl, rfl⟩, rfl, rfl, hn.symm, rfl, rfl, rfl, rfl, ?_⟩
      rw [hn]
      rfl

omit [DecidableEq π] in
/-- The interrupt completes the request of the first buffer. -/
theorem Inv.intr {ok : Bool} {data : List UInt8} (h : Inv s l) (hrun : ideintr ok data s = .ok ((), s')) :
    ∃ l', Inv s' l' := by
  rcases ideintr_cases hrun with ⟨-, rfl⟩ | ⟨b, new, hq, hnew, hbuf, hqn, hhead, hcall, hsub, hcomp, hret, hiss⟩
  · exact ⟨l, h⟩
  cases l with
  | nil => exact nomatch hq.symm.trans h.chain
  | cons b' l =>
    obtain rfl : b' = b := Option.some.inj (h.chain.1.symm.trans hq)
    have hnd := nodup_cons.1 h.chain.nodup
    have hbuf_ne : ∀ c, c ≠ b' → s'.buf c = s.buf c := by
      intro c hc
      rw [hbuf, update_of_ne hc]
    have hbuf_eq : s'.buf b' = new := by rw [hbuf, update_self]
    have hfirst : s.submitted[s.completed.length]? = some b' := by
      rw [h.order, getElem?_append_right (Nat.le_refl _), Nat.sub_self]
      rfl
    refine ⟨l, ?_, ?_, ?_, ?_, ?_, ?_, ?_, ?_, ?_, ?_⟩
    · rw [hqn, hhead]
      exact h.chain.2
    · rw [hsub, hcomp, h.order, append_assoc]
      rfl
    · rw [hiss, map_append, h.started, hcomp, h.chain.2.head_eq]
      cases l <;> rfl
    · intro c hc
      rw [hiss, h.chain.2.head_eq, hc]
      exact getLast?_concat
    · intro c hc
      rw [hcall]
      exact h.waiting c (mem_cons_of_mem b' hc)
    · intro p c k hp
      rw [hcall] at hp
      rw [hsub]
      exact h.place p c k hp
    · intro p c k hp
      rw [hcall] at hp
      have hopen := h.open_iff p c k hp
      rw [hcomp, length_append, length_singleton]
      by_cases hc : c = b'
      · -- its number is the first one that was open
        subst hc
        have hk : s.completed.length ≤ k := hopen.2 (h.queued c mem_cons_self)
        have hplace := h.place p c k hp
        rw [h.order, getElem?_append_right hk] at hplace
        have hzero : k - s.completed.length = 0 := by
          by_contra hne
          obtain ⟨j, hj⟩ : ∃ j, k - s.completed.length = j + 1 := ⟨k - s.completed.length - 1, by omega⟩
          rw [hj, getElem?_cons_succ] at hplace
          exact hnd.1 (mem_of_getElem? hplace)
        rw [hbuf_eq]
        constructor
        · intro hle
          omega
        · intro hn
          exact absurd hnew hn
      · rw [hbuf_ne c hc, ← hopen]
        constructor
        · intro hle
          omega
        · intro hle
          have hne : k ≠ s.completed.length := by
            rintro rfl
            rw [h.place p c _ hp] at hfirst
            exact hc (Option.some.inj hfirst)
          omega
    · intro c hc
      have hne : c ≠ b' := by
        rintro rfl
        exact hnd.1 hc
      rw [hbuf_ne c hne]
      exact h.queued c (mem_cons_of_mem b' hc)
    · rw [hcall]
      exact h.unique
    · intro x hx
      rw [hret] at hx
      obtain ⟨h1, h2, h3⟩ := h.returned x hx
      rw [hcomp, hsub, length_append]
      exact ⟨by omega, h2, h3⟩

omit [DecidableEq β] in
/-- A process that finds its buffer done returns. -/
theorem Inv.wake (h : Inv s l) (p : π) : Inv (wake p s) l := by
  unfold Ide.wake
  cases hp : s.call p with
  | none => exact h
  | some x =>
    obtain ⟨b, k⟩ := x
    dsimp only
    split
    · next hdone =>
      have hsub : ∀ q y, update s.call p none q = some y → s.call q = some y ∧ q ≠ p := by
        intro q y hq
        by_cases hqp : q = p
        · rw [hqp, update_self] at hq
          cases hq
        · rw [update_of_ne hqp] at hq
          exact ⟨hq, hqp⟩
      refine ⟨h.chain, h.order, h.started, h.active, fun c hc => ?_, fun q c j hq => ?_,
        fun q c j hq => ?_, h.queued, fun q q' c j j' hq hq' => ?_, fun x hx => ?_⟩
      · -- a queued buffer is not done, so it is not this one
        obtain ⟨q, j, hq⟩ := h.waiting c hc
        refine ⟨q, j, ?_⟩
        show update s.call p none q = _
        rw [update_of_ne, hq]
        rintro rfl
        rw [hp] at hq
        cases hq
        exact h.queued b hc hdone
      · exact h.place q c j (hsub q _ hq).1
      · exact h.open_iff q c j (hsub q _ hq).1
      · exact h.unique q q' c j j' (hsub q _ hq).1 (hsub q' _ hq').1
      · rcases mem_append.1 hx with hx | hx
        · exact h.returned x hx
        · obtain rfl := mem_singleton.1 hx
          refine ⟨?_, h.place p b k hp, hdone⟩
          by_contra hge
          exact (h.open_iff p b k hp).1 (Nat.not_lt.1 hge) hdone
    · exact h

omit [DecidableEq π] in
/-- A buffer that no call is about can change. -/
theorem Inv.change (h : Inv s l) (hidle : s.Idle b) (new : Buf) :
    Inv { s with buf := update s.buf b new } l := by
  have hcall : ∀ p c k, s.call p = some (c, k) → update s.buf b new c = s.buf c := by
    intro p c k hp
    apply update_of_ne
    rintro rfl
    exact hidle p k hp
  have hqueue : ∀ c ∈ l, update s.buf b new c = s.buf c := by
    intro c hc
    obtain ⟨p, k, hp⟩ := h.waiting c hc
    exact hcall p c k hp
  refine ⟨h.chain, h.order, h.started, fun c hc => ?_, h.waiting, h.place, fun p c k hp => ?_,
    fun c hc => ?_, h.unique, h.returned⟩
  · show _ = some (c, command (update s.buf b new c))
    rw [hqueue c (mem_of_mem_head? hc)]
    exact h.active c hc
  · show _ ↔ ¬ (update s.buf b new c).Done
    rw [hcall p c k hp]
    exact h.open_iff p c k hp
  · show ¬ (update s.buf b new c).Done
    rw [hqueue c hc]
    exact h.queued c hc

variable [Fintype β]

/-- What `iderw` does when it does not panic. -/
theorem iderw_cases {p : π} (hl : Chain s.qnext s.idequeue l) (hb : b ∉ l)
    (h : iderw p b s = .ok ((), s')) : ¬ (s.buf b).Done ∧ s'.buf = s.buf ∧
      Chain s'.qnext s'.idequeue (l ++ [b]) ∧
      s'.call = update s.call p (some (b, s.submitted.length)) ∧
      s'.submitted = s.submitted ++ [b] ∧ s'.completed = s.completed ∧ s'.returned = s.returned ∧
      s'.issued = if l = [] then s.issued ++ [(b, command (s.buf b))] else s.issued := by
  unfold iderw at h
  rw [seq_get] at h
  split at h
  · cases h
  split at h
  · cases h
  next hdone =>
  split at h
  · cases h
  obtain ⟨q, hd, happ, hchain⟩ := append_chain hl hb (n := Fintype.card β + 1)
    (by have := hl.length_le; omega)
  rw [happ] at h
  dsimp only at h
  rw [seq_ok (a := ()) rfl] at h
  have hhead := hchain.head_eq
  cases l with
  | nil =>
    have hfirst : hd = some b := hhead
    rw [if_pos hfirst] at h
    rw [idestart_ok h, if_pos rfl]
    exact ⟨hdone, rfl, hchain, rfl, rfl, rfl, rfl, rfl⟩
  | cons a l =>
    have hne : hd ≠ some b := by
      rw [hhead]
      intro he
      cases he
      exact hb mem_cons_self
    rw [if_neg hne] at h
    cases h
    rw [if_neg nofun]
    exact ⟨hdone, rfl, hchain, rfl, rfl, rfl, rfl, rfl⟩

/-- The request is the last one, and it is started when it is the only one. -/
theorem Inv.iderw {p : π} (h : Inv s l) (hp : s.call p = none) (hidle : s.Idle b)
    (hrun : iderw p b s = .ok ((), s')) : Inv s' (l ++ [b]) := by
  have hb : b ∉ l := by
    intro hmem
    obtain ⟨q, k, hq⟩ := h.waiting b hmem
    exact hidle q k hq
  obtain ⟨hdone, hbuf, hchain, hcall, hsub, hcomp, hret, hiss⟩ := iderw_cases h.chain hb hrun
  have hlen : s.completed.length ≤ s.submitted.length := by
    rw [h.order, length_append]
    omega
  have hcases : ∀ q c k, s'.call q = some (c, k) →
      (q = p ∧ c = b ∧ k = s.submitted.length) ∨ (q ≠ p ∧ c ≠ b ∧ s.call q = some (c, k)) := by
    intro q c k hq
    rw [hcall] at hq
    by_cases hqp : q = p
    · rw [hqp, update_self] at hq
      cases hq
      exact .inl ⟨hqp, rfl, rfl⟩
    · rw [update_of_ne hqp] at hq
      refine .inr ⟨hqp, ?_, hq⟩
      rintro rfl
      exact hidle q k hq
  refine ⟨hchain, ?_, ?_, ?_, ?_, ?_, ?_, ?_, ?_, ?_⟩
  · rw [hsub, hcomp, h.order, append_assoc]
  · rw [hiss, hcomp]
    cases l with
    | nil =>
      rw [if_pos rfl, map_append, h.started, append_assoc]
      rfl
    | cons a l =>
      rw [if_neg nofun, h.started]
      rfl
  · intro c hc
    rw [hiss, hbuf]
    cases l with
    | nil =>
      cases hc
      rw [if_pos rfl]
      exact getLast?_concat
    | cons a l =>
      rw [if_neg nofun]
      exact h.active c hc
  · intro c hc
    rcases mem_append.1 hc with hc | hc
    · obtain ⟨q, k, hq⟩ := h.waiting c hc
      refine ⟨q, k, ?_⟩
      rw [hcall, update_of_ne, hq]
      rintro rfl
      exact nomatch hp.symm.trans hq
    · obtain rfl := mem_singleton.1 hc
      exact ⟨p, _, by rw [hcall, update_self]⟩
  · intro q c k hq
    rw [hsub]
    rcases hcases q c k hq with ⟨-, rfl, rfl⟩ | ⟨-, -, hq⟩
    · exact getElem?_concat_length
    · have hplace := h.place q c k hq
      rwa [getElem?_append_left (List.getElem?_eq_some_iff.1 hplace).1]
  · intro q c k hq
    rw [hcomp, hbuf]
    rcases hcases q c k hq with ⟨-, rfl, rfl⟩ | ⟨-, -, hq⟩
    · exact ⟨fun _ => hdone, fun _ => hlen⟩
    · exact h.open_iff q c k hq
  · intro c hc
    rw [hbuf]
    rcases mem_append.1 hc with hc | hc
    · exact h.queued c hc
    · obtain rfl := mem_singleton.1 hc
      exact hdone
  · intro q q' c k k' hq hq'
    rcases hcases q c k hq with ⟨rfl, rfl, -⟩ | ⟨-, hne, hq⟩
    · rcases hcases q' c k' hq' with ⟨rfl, -, -⟩ | ⟨-, hne, -⟩
      · rfl
      · exact absurd rfl hne
    · rcases hcases q' c k' hq' with ⟨-, hc, -⟩ | ⟨-, -, hq'⟩
      · exact absurd hc hne
      · exact h.unique q q' c k k' hq hq'
  · intro x hx
    rw [hret] at hx
    obtain ⟨h1, h2, h3⟩ := h.returned x hx
    rw [hcomp, hsub]
    exact ⟨h1, by rwa [getElem?_append_left (List.getElem?_eq_some_iff.1 h2).1], h3⟩

/-- In every run. -/
theorem reach_inv (h : (machine (β := β) (π := π)).Reach s) : ∃ l, Inv s l := by
  refine h.invariant (P := fun s => ∃ l, Inv s l) (fun s hs => ?_) fun s a s' _ hi hstep => ?_
  · obtain ⟨hq, hcall, hiss, hsub, hcomp, hret⟩ := hs
    refine ⟨[], hq, ?_, ?_, nofun, nofun, ?_, ?_, nofun, ?_, ?_⟩
    · rw [hsub, hcomp]
      rfl
    · rw [hiss, hcomp]
      rfl
    · intro p b k hp
      exact nomatch (hcall p).symm.trans hp
    · intro p b k hp
      exact nomatch (hcall p).symm.trans hp
    · intro p p' b k k' hp _
      exact nomatch (hcall p).symm.trans hp
    · intro x hx
      rw [hret] at hx
      exact absurd hx not_mem_nil
  · obtain ⟨l, hi⟩ := hi
    cases hstep with
    | iderw hp hidle hrun => exact ⟨_, hi.iderw hp hidle hrun⟩
    | wake => exact ⟨l, hi.wake _⟩
    | intr _ hrun => exact hi.intr hrun
    | change hidle => exact ⟨l, hi.change hidle _⟩

/-- The buffers wait in the order of submission, the first of them is the one that the disk works on, and
every request has been started once, in order; `iderw` returns when its own request is completed. -/
theorem requests_in_order (s : State β π) (h : (machine (β := β) (π := π)).Reach s) : ∃ l : List β,
    Chain s.qnext s.idequeue l ∧ l.Nodup ∧ s.submitted = s.completed ++ l ∧
    s.issued.map Prod.fst = s.completed ++ l.head?.toList ∧
    (∀ b, l.head? = some b → s.issued.getLast? = some (b, command (s.buf b))) ∧
    ∀ x ∈ s.returned, x.request < s.completed.length ∧ s.submitted[x.request]? = some x.b ∧
      x.buf.valid = true ∧ x.buf.dirty = false := by
  obtain ⟨l, hi⟩ := reach_inv h
  refine ⟨l, hi.chain, hi.chain.nodup, hi.order, hi.started, hi.active, fun x hx => ?_⟩
  obtain ⟨h1, h2, h3⟩ := hi.returned x hx
  exact ⟨h1, h2, h3.1, h3.2⟩

end

/-- Two processes read two blocks; the first one has returned. -/
theorem requests_in_order_two : ∃ s : State (Fin 2) (Fin 2), s.submitted = [0, 1] ∧
    s.returned.map Return.b = [0] ∧ s.issued.map Prod.fst = [0, 1] ∧
    ∃ l : List (Fin 2), Chain s.qnext s.idequeue l ∧ s.submitted = s.completed ++ l := by
  let s₀ : State (Fin 2) (Fin 2) :=
    { buf := fun b => ⟨true, false, false, 0, b, []⟩, qnext := fun _ => none, idequeue := none,
      havedisk1 := false, call := fun _ => none, issued := [], submitted := [], completed := [],
      returned := [] }
  have h₀ : machine.Reach s₀ := .init ⟨rfl, fun _ => rfl, rfl, rfl, rfl, rfl⟩
  have h₁ := h₀.step (.iderw (p := 0) (b := 0) rfl nofun rfl)
  have h₂ := h₁.step (.iderw (p := 1) (b := 1) rfl
    (fun p _ => match p with | 0 => nofun | 1 => nofun) rfl)
  have h₃ := h₂.step (show Step _ (.intr true [7]) _ from .intr (.inl (by decide)) rfl)
  have h₄ := h₃.step (.wake (p := 0))
  obtain ⟨l, hchain, -, horder, -⟩ := requests_in_order _ h₄
  exact ⟨_, rfl, rfl, rfl, l, hchain, horder⟩

end Xv6.Ide
