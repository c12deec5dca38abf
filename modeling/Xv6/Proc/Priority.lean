import Xv6.Proc.Mlfq

/-!
# `promoteProcs` and `setpriority`

`promoteProcs` drains level 1 onto level 0, then level 2 onto level 1, and so on.  When it comes
to a level, the level below it has just become empty, so no process moves twice.  `Shifted n a b`
is the loop invariant: the levels up to `n` are done.

`setpriority` works on one process, the first it meets with the pid.
-/

namespace Xv6.Procs

open Function List

/-- One level up with a full budget. -/
def Proc.raise (q : Proc) : Proc := { q with priority := q.priority - 1, budget := maxBudget }

namespace Lists

variable {a b : Lists} {n i : Nat} {p : Slot}

theorem promote_eq (q : Proc) : promote q = q.raise := by
  unfold promote Proc.raise
  split
  · rfl
  · have h0 : q.priority = 0 := by omega
    rw [h0]

theorem ready_ne {i j : Nat} (h : i ≠ j) : ListId.ready i ≠ .ready j := by
  simpa using h

theorem Disjoint.ready_eq {i j : Nat} (h : a.Disjoint) (hi : p ∈ a.list (.ready i))
    (hj : p ∈ a.list (.ready j)) : i = j := by
  simpa using h.unique _ _ p hi hj

/-! ## One level -/

/-- Level `i` stands behind level `i - 1`, each of its processes one level up. -/
structure Raised (i : Nat) (a b : Lists) : Prop where
  globals : b.toGlobals = a.toGlobals
  above : b.list (.ready (i - 1)) = a.list (.ready (i - 1)) ++ a.list (.ready i)
  level : b.list (.ready i) = []
  other : ∀ id, id ≠ .ready i → id ≠ .ready (i - 1) → b.list id = a.list id
  moved : ∀ p ∈ a.list (.ready i), b.proc p = (a.proc p).raise
  rest : ∀ p, p ∉ a.list (.ready i) → b.proc p = a.proc p

theorem Raised.of_nil (h : a.list (.ready i) = []) : Raised i a a where
  globals := rfl
  above := by rw [h, append_nil]
  level := h
  other _ _ _ := rfl
  moved p hp := by
    rw [h] at hp
    exact absurd hp not_mem_nil
  rest _ _ := rfl

/-- The head of the level moves, then the rest of it. -/
theorem Raised.of_head {l : List Slot} (hi : 0 < i) (hl : a.list (.ready i) = p :: l) (hp : p ∉ l)
    (h : Raised i (a.requeue (.ready i) (.ready (i - 1)) p Proc.raise) b) : Raised i a b := by
  have hne : ListId.ready i ≠ .ready (i - 1) := ready_ne (by omega)
  have hlevel : (a.requeue (.ready i) (.ready (i - 1)) p Proc.raise).list (.ready i) = l :=
    requeue_list_head a hl hne _
  have habove : (a.requeue (.ready i) (.ready (i - 1)) p Proc.raise).list (.ready (i - 1)) =
      a.list (.ready (i - 1)) ++ [p] := by
    simp only [requeue, add, update_self, modify_list, remove_list_of_ne a p hne.symm]
  refine ⟨h.globals, ?_, h.level, fun id h1 h2 => ?_, fun q hq => ?_, fun q hq => ?_⟩
  · rw [h.above, habove, hlevel, hl, append_assoc]
    rfl
  · rw [h.other id h1 h2]
    exact requeue_list_of_ne a p _ h1 h2
  · rw [hl] at hq
    rcases mem_cons.1 hq with rfl | hq
    · rw [h.rest q (hlevel ▸ hp), requeue_proc, modify_proc_self]
    · have hqp : q ≠ p := fun he => hp (he ▸ hq)
      rw [h.moved q (hlevel ▸ hq), requeue_proc, modify_proc_of_ne a _ hqp]
  · rw [hl, mem_cons, not_or] at hq
    rw [h.rest q (hlevel ▸ hq.2), requeue_proc, modify_proc_of_ne a _ hq.1]

/-- `for(p = ready[i]; p != 0; p = ready[i])`, over what is left of the level. -/
theorem raise_loop (l : List Slot) (hi : 0 < i) (hl : a.list (.ready i) = l) (hnd : l.Nodup)
    (hprio : ∀ p ∈ l, (a.proc p).priority = i) :
    ∃ b, l.foldlM (fun a p => a.requeueAt i (.ready (i - 1)) p fun q =>
      { q with priority := q.priority - 1, budget := maxBudget }) a = .ok b ∧ Raised i a b := by
  induction l generalizing a with
  | nil => exact ⟨a, rfl, .of_nil hl⟩
  | cons p l ih =>
    obtain ⟨hp, hnd⟩ := nodup_cons.1 hnd
    have hne : ListId.ready i ≠ .ready (i - 1) := ready_ne (by omega)
    have hstep : a.requeueAt i (.ready (i - 1)) p (fun q =>
        { q with priority := q.priority - 1, budget := maxBudget }) =
        .ok (a.requeue (.ready i) (.ready (i - 1)) p Proc.raise) := by
      unfold requeueAt
      rw [if_neg (not_not.2 (hprio p mem_cons_self))]
      rfl
    obtain ⟨b, hb, hr⟩ := ih (a := a.requeue (.ready i) (.ready (i - 1)) p Proc.raise)
      (requeue_list_head a hl hne _) hnd (by
        intro q hq
        have hqp : q ≠ p := fun he => hp (he ▸ hq)
        rw [requeue_proc, modify_proc_of_ne a _ hqp]
        exact hprio q (mem_cons_of_mem p hq))
    refine ⟨b, ?_, hr.of_head hi hl hp⟩
    rw [foldlM_cons, hstep]
    exact hb

/-! ## All levels -/

/-- The levels `1` to `n` are done. -/
structure Shifted (n : Nat) (a b : Lists) : Prop where
  globals : b.toGlobals = a.toGlobals
  zero : b.list (.ready 0) = a.list (.ready 0) ++ if n = 0 then [] else a.list (.ready 1)
  shifted : ∀ i, 0 < i → i < n → b.list (.ready i) = a.list (.ready (i + 1))
  last : 0 < n → b.list (.ready n) = []
  below : ∀ i, n < i → b.list (.ready i) = a.list (.ready i)
  other : ∀ id, (∀ i, id ≠ .ready i) → b.list id = a.list id
  moved : ∀ i p, 0 < i → i ≤ n → p ∈ a.list (.ready i) → b.proc p = (a.proc p).raise
  rest : ∀ p, (∀ i, 0 < i → i ≤ n → p ∉ a.list (.ready i)) → b.proc p = a.proc p

theorem Shifted.zero_refl (a : Lists) : Shifted 0 a a where
  globals := rfl
  zero := by rw [if_pos rfl, append_nil]
  shifted i h0 hi := by omega
  last h0 := by omega
  below _ _ := rfl
  other _ _ := rfl
  moved i p h0 hi := by omega
  rest _ _ := rfl

/-- The next level moves onto the one that has just been drained. -/
theorem Shifted.step {c : Lists} (h : Shifted n a b) (hd : a.Disjoint) (hr : Raised (n + 1) b c) :
    Shifted (n + 1) a c := by
  have hlevel : b.list (.ready (n + 1)) = a.list (.ready (n + 1)) :=
    h.below (n + 1) (Nat.lt_succ_self n)
  have habove : c.list (.ready n) = b.list (.ready n) ++ a.list (.ready (n + 1)) := by
    have := hr.above
    rw [Nat.add_sub_cancel, hlevel] at this
    exact this
  have hother : ∀ i, i ≠ n + 1 → i ≠ n → c.list (.ready i) = b.list (.ready i) := by
    intro i h1 h2
    exact hr.other _ (ready_ne h1) (ready_ne h2)
  refine ⟨hr.globals.trans h.globals, ?_, fun i h0 hi => ?_, fun _ => hr.level, fun i hi => ?_,
    fun id hid => ?_, fun i p h0 hi hp => ?_, fun p hp => ?_⟩
  · rw [if_neg (Nat.succ_ne_zero n)]
    rcases Nat.eq_zero_or_pos n with rfl | hn
    · rw [habove, h.zero, if_pos rfl, append_nil]
    · rw [hother 0 (by omega) (by omega), h.zero, if_neg (by omega)]
  · rcases Nat.lt_or_eq_of_le (Nat.le_of_lt_succ hi) with hlt | rfl
    · rw [hother i (by omega) (by omega), h.shifted i h0 hlt]
    · rw [habove, h.last h0, nil_append]
  · rw [hother i (by omega) (by omega), h.below i (by omega)]
  · rw [hr.other id (hid _) (hid _), h.other id hid]
  · rcases Nat.lt_or_eq_of_le hi with hlt | rfl
    · -- it has moved before, and is not on the level that moves now
      have hnot : p ∉ b.list (.ready (n + 1)) := by
        rw [hlevel]
        intro hm
        have := hd.ready_eq hp hm
        omega
      rw [hr.rest p hnot, h.moved i p h0 (by omega) hp]
    · have hrest : b.proc p = a.proc p := by
        refine h.rest p fun j _ hj hm => ?_
        have := hd.ready_eq hp hm
        omega
      rw [hr.moved p (hlevel.symm ▸ hp), hrest]
  · rw [hr.rest p (hlevel.symm ▸ hp (n + 1) (Nat.succ_pos n) (Nat.le_refl _))]
    exact h.rest p fun i h0 hi => hp i h0 (by omega)

theorem shift_loop (hd : a.Disjoint) (hp : a.PlacedFrom 1) (n : Nat) :
    ∃ b, (List.range' 1 n).foldlM (fun a i => a.promoteLevel i) a = .ok b ∧ Shifted n a b := by
  induction n with
  | zero => exact ⟨a, rfl, .zero_refl a⟩
  | succ n ih =>
    obtain ⟨b, hb, hs⟩ := ih
    have hlevel := hs.below (n + 1) (Nat.lt_succ_self n)
    obtain ⟨c, hc, hr⟩ := raise_loop (a := b) (b.list (.ready (n + 1))) (Nat.succ_pos n) rfl
      (hlevel ▸ hd.nodup _) (by
        intro p hm
        rw [hlevel] at hm
        have hrest : b.proc p = a.proc p := by
          refine hs.rest p fun j _ hj hm' => ?_
          have := hd.ready_eq hm hm'
          omega
        rw [hrest]
        exact hp (n + 1) p (by omega) hm)
    refine ⟨c, ?_, hs.step hd hr⟩
    rw [List.range'_1_concat, foldlM_append, hb, Nat.add_comm 1 n]
    simp only [foldlM_cons, foldlM_nil]
    show (promoteLevel (n + 1) b >>= pure) = _
    unfold promoteLevel
    rw [hc]
    rfl

end Lists

/-! ## promoteProcs -/

/-- On a level above 0, or SLEEPING or RUNNING. -/
def Proc.Promotable (q : Proc) : Prop :=
  q.state = .runnable ∧ 0 < q.priority ∨ q.state = .sleeping ∨ q.state = .running

instance (q : Proc) : Decidable q.Promotable :=
  inferInstanceAs (Decidable (_ ∨ _))

/-- Every process has moved up by one level. -/
structure PTable.Promoted (s s' : PTable) : Prop where
  globals : s'.toGlobals = s.toGlobals
  zero : s'.slots (.ready 0) = s.slots (.ready 0) ++ s.slots (.ready 1)
  shifted : ∀ i, 0 < i → i < maxPrio → s'.slots (.ready i) = s.slots (.ready (i + 1))
  last : s'.slots (.ready maxPrio) = []
  other : ∀ id, (∀ i, id ≠ .ready i) → s'.slots id = s.slots id
  proc : ∀ p, s'.proc p = if (s.proc p).Promotable then
    { s.proc p with priority := (s.proc p).priority - 1, budget := maxBudget } else s.proc p

namespace Lists

variable {a : Lists}

/-- On a ready list above the first, or SLEEPING or RUNNING. -/
def Promotable (a : Lists) (p : Slot) : Prop :=
  (∃ i, 0 < i ∧ p ∈ a.list (.ready i)) ∨ (a.proc p).state = .sleeping ∨ (a.proc p).state = .running

/-- The lists after the loop over the levels, with the two loops at the end. -/
def promoteRest (a b : Lists) : Lists :=
  (b.mapSlots (a.list .sleep) promote).mapSlots (a.list .running) promote

theorem promoteProcs_eq (hw : a.WF) (hp : a.PlacedFrom 1) :
    ∃ b, Shifted maxPrio a b ∧ a.promoteProcs = .ok (a.promoteRest b) := by
  obtain ⟨b, hb, hs⟩ := shift_loop hw.disjoint hp maxPrio
  refine ⟨b, hs, ?_⟩
  unfold promoteProcs promoteRest
  rw [hb, ← hs.other .sleep (by simp), ← hs.other .running (by simp)]
  rfl

theorem promoteRest_proc (hw : a.WF) {b : Lists} (hs : Shifted maxPrio a b) (p : Slot) :
    (a.Promotable p → (a.promoteRest b).proc p = (a.proc p).raise) ∧
    (¬ a.Promotable p → (a.promoteRest b).proc p = a.proc p) := by
  have hsleep : p ∈ a.list .sleep ↔ _ := hw.mem_iff (by simp) p
  have hrun : p ∈ a.list .running ↔ _ := hw.mem_iff (by simp) p
  have hnot : ∀ id, (a.proc p).state ≠ id.state → p ∉ a.list id :=
    fun id hne hm => hne (hw.state id p hm)
  have hdef : (a.promoteRest b).proc p = if p ∈ a.list .running then
      (if p ∈ a.list .sleep then (b.proc p).raise else b.proc p).raise
      else if p ∈ a.list .sleep then (b.proc p).raise else b.proc p := by
    simp only [promoteRest, mapSlots, promote_eq]
  rw [hdef]
  constructor
  · rintro (⟨i, h0, hm⟩ | hst | hst)
    · -- the two loops at the end pass it by
      have hst : (a.proc p).state = .runnable := hw.state _ p hm
      rw [if_neg (hnot .running (by rw [hst]; decide)), if_neg (hnot .sleep (by rw [hst]; decide))]
      refine hs.moved i p h0 ?_ hm
      by_contra hi
      rw [hw.level i (by omega)] at hm
      exact absurd hm not_mem_nil
    · rw [if_neg (hnot .running (by rw [hst]; decide)), if_pos (hsleep.2 hst),
        hs.rest p fun i _ _ => hnot _ (by rw [hst]; exact ProcState.noConfusion)]
    · rw [if_pos (hrun.2 hst), if_neg (hnot .sleep (by rw [hst]; decide)),
        hs.rest p fun i _ _ => hnot _ (by rw [hst]; exact ProcState.noConfusion)]
  · intro hp
    rw [if_neg fun hm => hp (.inr (.inr (hrun.1 hm))),
      if_neg fun hm => hp (.inr (.inl (hsleep.1 hm)))]
    exact hs.rest p fun i h0 _ hm => hp (.inl ⟨i, h0, hm⟩)

theorem Placed.promotable_iff (hp : a.Placed) (hw : a.WF) (p : Slot) :
    a.Promotable p ↔ (a.proc p).Promotable := by
  refine or_congr_left ⟨?_, fun ⟨hst, h0⟩ => ⟨_, h0, hw.placed_iff.1 hp p hst⟩⟩
  rintro ⟨i, h0, hm⟩
  exact ⟨hw.state _ p hm, (hp i p hm).symm ▸ h0⟩

end Lists

/-- With every RUNNABLE process on the list of its priority `promoteProcs` returns, and every
process has moved up by exactly one level. -/
theorem promoteProcs_promoted (s : PTable) (h : s.ListInv) (hp : s.Placed) :
    ∃ s', s.promoteProcs = .ok s' ∧ s.Promoted s' ∧ s'.ListInv ∧ s'.Placed := by
  obtain ⟨hr, hw⟩ := (listInv_iff s).1 h
  have hpl := (placed_lists hw).1 hp
  obtain ⟨b, hs, hb⟩ := Lists.promoteProcs_eq hw fun i p _ => hpl i p
  have hplaced := ((Lists.placedFrom_zero.2 hpl).promoteProcs (Nat.zero_le 1) hw).of_ok hb
  have hsim := promoteProcs_simP hr hw
  rw [hb] at hsim
  obtain ⟨s', hs', hr', hw'⟩ := hsim
  refine ⟨s', hs', ⟨?_, ?_, fun i h0 hi => ?_, ?_, fun id hid => ?_, fun p => ?_⟩, ?_, ?_⟩
  · rw [hr'.globals]
    exact hs.globals
  · rw [hr'.slots_eq]
    exact hs.zero
  · rw [hr'.slots_eq]
    exact hs.shifted i h0 hi
  · rw [hr'.slots_eq]
    exact hs.last (by decide)
  · rw [hr'.slots_eq]
    exact hs.other id hid
  · obtain ⟨hyes, hno⟩ := Lists.promoteRest_proc hw hs p
    rw [hpl.promotable_iff hw] at hyes hno
    rw [hr'.proc]
    split
    · next hpr => exact hyes hpr
    · next hpr => exact hno hpr
  · rw [listInv_iff, hr'.lists_eq]
    exact ⟨hr', hw'⟩
  · rw [placed_lists (hr'.lists_eq ▸ hw'), hr'.lists_eq]
    exact Lists.placedFrom_zero.1 hplaced.2

/-- A child at level 3 moves to level 2. -/
theorem promoteProcs_promoted_child :
    ∃ s s' : PTable, s.ListInv ∧ s.Placed ∧ s.slots (.ready 3) = [1] ∧
    s.promoteProcs = .ok s' ∧ s.Promoted s' := by
  obtain ⟨k, hk, hP⟩ := Kernel.exists_reach
    [.scheduler, .forkAlloc 0, .kallocOk 0 1, .copyuvmOk 0 1, .forkReady 0 1, .setpriority 0 2 3]
    (P := fun k => decide (k.tab.Placed ∧ k.tab.slots (.ready 3) = [1])) (by decide +kernel)
  obtain ⟨hp, hl⟩ := of_decide_eq_true hP
  obtain ⟨s', hs', hpr, -⟩ := promoteProcs_promoted k.tab (listInv_of_reach hk) hp
  exact ⟨k.tab, s', listInv_of_reach hk, hp, hl, hs', hpr⟩

/-! ## setpriority -/

/-- The processes that `setpriority` looks at. -/
def Proc.Settable (q : Proc) : Prop :=
  q.state = .runnable ∨ q.state = .sleeping ∨ q.state = .running

/-- A new priority, with a full budget. -/
def Proc.setPriority (prio : Nat) (q : Proc) : Proc :=
  { q with priority := prio, budget := maxBudget }

namespace Lists

variable {a : Lists} {pID : BitVec 32} {prio : Nat} {p : Slot}

/-- What `setpriority` does to the process it finds. -/
def setPriority (prio : Nat) (p : Slot) (a : Lists) : Lists :=
  if (a.proc p).priority = prio then a
  else if (a.proc p).state = .runnable then
    a.requeue (.ready (a.proc p).priority) (.ready prio) p (Proc.setPriority prio)
  else a.modify p (Proc.setPriority prio)

theorem setPriority_ready (hne : (a.proc p).priority ≠ prio)
    (hst : (a.proc p).state = .runnable) : a.setPriority prio p =
      a.requeue (.ready (a.proc p).priority) (.ready prio) p (Proc.setPriority prio) := by
  unfold setPriority
  rw [if_neg hne, if_pos hst]

theorem setPriority_other (hne : (a.proc p).priority ≠ prio)
    (hst : (a.proc p).state ≠ .runnable) :
    a.setPriority prio p = a.modify p (Proc.setPriority prio) := by
  unfold setPriority
  rw [if_neg hne, if_neg hst]

theorem setprioIn_some {id : ListId} (hid : id.state ≠ .runnable) (hw : a.WF)
    (h : (a.list id).find? (fun p => (a.proc p).pid = pID) = some p) :
    a.setprioIn id pID prio = (some 0, a.setPriority prio p) := by
  have hst : ¬ (a.proc p).state = .runnable := by
    rw [hw.state id p (mem_of_find?_eq_some h)]
    exact hid
  unfold setprioIn setPriority
  rw [h]
  dsimp only
  rw [if_neg hst, ite_not]
  rfl

theorem setprioIn_none {id : ListId}
    (h : (a.list id).find? (fun p => (a.proc p).pid = pID) = none) :
    a.setprioIn id pID prio = (none, a) := by
  unfold setprioIn
  rw [h]

/-- `setpriority` changes the first process that has the pid. -/
theorem setpriority_eq (hw : a.WF) (hp : a.Placed) :
    a.setpriority pID prio = match a.setprioTarget pID with
      | none => .ok (-1, a)
      | some p => .ok (0, a.setPriority prio p) := by
  unfold setpriority setprioTarget
  rw [find?_append, find?_append]
  rcases setprioLevels_cases a pID prio with ⟨hq, hrun⟩ | ⟨i, p, hm, hfind, hrun⟩
  · rw [hrun, hq]
    dsimp only [bind, Except.bind]
    cases hs : (a.list .sleep).find? fun p => (a.proc p).pid = pID with
    | some p =>
      rw [setprioIn_some (by decide) hw hs]
      rfl
    | none =>
      rw [setprioIn_none hs]
      cases hr : (a.list .running).find? fun p => (a.proc p).pid = pID with
      | some p =>
        dsimp only
        rw [setprioIn_some (by decide) hw hr]
        rfl
      | none =>
        dsimp only
        rw [setprioIn_none hr]
        rfl
  · have hpid : (a.proc p).pid = pID := by simpa using find?_some hfind
    have hprio := hp i p hm
    have hst : (a.proc p).state = .runnable := hw.state _ p hm
    rw [hrun, hfind]
    show _ = Except.ok (0, a.setPriority prio p)
    unfold setprioReady setPriority requeueAt
    rw [if_pos hpid, ite_not, if_neg (not_not.2 hprio), if_pos hst, hprio]
    split <;> rfl

theorem setprioTarget_some (hw : a.WF) (h : a.setprioTarget pID = some p) :
    (a.proc p).pid = pID ∧ (a.proc p).Settable := by
  unfold setprioTarget at h
  refine ⟨by simpa using find?_some h, ?_⟩
  have hm := mem_of_find?_eq_some h
  rw [mem_append, mem_append] at hm
  rcases hm with (hm | hm) | hm
  · obtain ⟨i, -, hm⟩ := mem_flatMap.1 hm
    exact .inl (hw.state _ p hm)
  · exact .inr (.inl (hw.state _ p hm))
  · exact .inr (.inr (hw.state _ p hm))

theorem setprioTarget_none (hw : a.WF) (hp : a.Placed) (h : a.setprioTarget pID = none)
    (hset : (a.proc p).Settable) : (a.proc p).pid ≠ pID := by
  have hm : p ∈ a.queue ++ a.list .sleep ++ a.list .running := by
    rw [mem_append, mem_append]
    rcases hset with hst | hst | hst
    · refine .inl (.inl (mem_flatMap.2 ⟨_, ?_, hw.placed_iff.1 hp p hst⟩))
      exact mem_range.2 (Nat.lt_succ_of_le (hw.prio p))
    · exact .inl (.inr ((hw.mem_iff (by simp) p).2 hst))
    · exact .inr ((hw.mem_iff (by simp) p).2 hst)
  simpa using find?_eq_none.1 h p hm

end Lists

/-! ### A search that writes nothing -/

theorem forIn_same {α β σ ε : Type} {body : α → σ → Except ε (Option β × σ)} {l : List α} {s : σ}
    (h : ∀ x ∈ l, ∃ r, body x s = .ok (r, s)) : ∃ r, forIn body l s = .ok (r, s) := by
  induction l with
  | nil => exact ⟨none, rfl⟩
  | cons x l ih =>
    obtain ⟨r, hr⟩ := h x mem_cons_self
    obtain ⟨r', hr'⟩ := ih fun y hy => h y (mem_cons_of_mem x hy)
    rw [forIn, hr]
    cases r with
    | none => exact ⟨r', hr'⟩
    | some b => exact ⟨some b, rfl⟩

section
variable {s : PTable} {pID : BitVec 32} {prio : Nat}

/-- No process has another priority to set, so nothing is written. -/
theorem setpriority_same (h : s.ListInv)
    (hsame : ∀ p, (s.proc p).Settable → (s.proc p).pid = pID → (s.proc p).priority = prio) :
    ∃ rc, s.setpriority pID prio = .ok (rc, s) := by
  obtain ⟨hr, hw⟩ := (listInv_iff s).1 h
  have hready : ∀ i, ∀ p ∈ s.slots (.ready i), ∃ r, PTable.setprioReady i pID prio p s =
      .ok (r, s) := by
    intro i p hm
    unfold PTable.setprioReady
    by_cases hpid : (s.proc p).pid = pID
    · have := hsame p (.inl (h.state _ p hm)) hpid
      rw [if_pos hpid, if_neg (not_not.2 this)]
      exact ⟨_, rfl⟩
    · rw [if_neg hpid]
      exact ⟨_, rfl⟩
  have hbody : ∀ id, (∀ p ∈ s.slots id, (s.proc p).Settable) → ∀ p ∈ s.slots id,
      ∃ r, PTable.setprioBody id.state pID prio p s = .ok (r, s) := by
    intro id hset p hm
    unfold PTable.setprioBody
    by_cases hpid : (s.proc p).pid = pID
    · rw [if_pos hpid, if_neg (not_not.2 (hsame p (hset p hm) hpid))]
      exact ⟨_, rfl⟩
    · rw [if_neg hpid]
      exact ⟨_, rfl⟩
  have hlist : ∀ id, (∀ p ∈ s.slots id, (s.proc p).Settable) →
      ∃ r, s.forList id (PTable.setprioBody id.state pID prio) = .ok (r, s) := by
    intro id hset
    rw [forList_eq hr id _ fun p t t' ht => by rw [setprioBody_none ht]]
    exact forIn_same (hbody id hset)
  obtain ⟨r₁, h₁⟩ : ∃ r, PTable.forReady (fun i s =>
      PTable.forList (.ready i) (PTable.setprioReady i pID prio) s) s = .ok (r, s) := by
    refine forIn_same fun i _ => ?_
    rw [forList_eq hr (.ready i) _ fun p t t' ht => by rw [setprioReady_none ht]]
    exact forIn_same (hready i)
  obtain ⟨r₂, h₂⟩ := hlist .sleep fun p hm => .inr (.inl (h.state _ p hm))
  obtain ⟨r₃, h₃⟩ := hlist .running fun p hm => .inr (.inr (h.state _ p hm))
  unfold PTable.setpriority
  rw [h₁]
  cases r₁ with
  | some v => exact ⟨v, rfl⟩
  | none =>
    dsimp only [bind, Except.bind]
    rw [show s.forList .sleep (PTable.setprioBody .sleeping pID prio) = _ from h₂]
    cases r₂ with
    | some v => exact ⟨v, rfl⟩
    | none =>
      dsimp only
      rw [show s.forList .running (PTable.setprioBody .running pID prio) = _ from h₃]
      cases r₃ with
      | some v => exact ⟨v, rfl⟩
      | none => exact ⟨-1, rfl⟩

/-- `p` has got the priority and, if RUNNABLE, has gone to the end of its new level. -/
structure PTable.PrioritySet (s : PTable) (p : Slot) (prio : Nat) (s' : PTable) : Prop where
  globals : s'.toGlobals = s.toGlobals
  self : s'.proc p = { s.proc p with priority := prio, budget := maxBudget }
  others : ∀ q, q ≠ p → s'.proc q = s.proc q
  moved : (s.proc p).state = .runnable →
    s'.slots (.ready prio) = s.slots (.ready prio) ++ [p] ∧
    s'.slots (.ready (s.proc p).priority) = (s.slots (.ready (s.proc p).priority)).erase p ∧
    ∀ id, id ≠ .ready prio → id ≠ .ready (s.proc p).priority → s'.slots id = s.slots id
  stays : (s.proc p).state ≠ .runnable → s'.slots = s.slots

theorem prioritySet_of_rep {s' : PTable} {p : Slot}
    (hr' : Rep s' (s.lists.setPriority prio p)) (hne : (s.proc p).priority ≠ prio) :
    s.PrioritySet p prio s' := by
  by_cases hst : (s.proc p).state = .runnable
  · rw [Lists.setPriority_ready hne hst] at hr'
    have hready := Lists.ready_ne hne
    refine ⟨hr'.globals, ?_, fun q hq => ?_, fun _ => ⟨?_, ?_, fun id h1 h2 => ?_⟩,
      fun hst' => absurd hst hst'⟩
    · rw [hr'.proc, Lists.requeue_proc, Lists.modify_proc_self]
      rfl
    · rw [hr'.proc, Lists.requeue_proc, Lists.modify_proc_of_ne _ _ hq]
      rfl
    · rw [hr'.slots_eq]
      simp only [Lists.requeue, Lists.add, update_self, Lists.modify_list,
        remove_list_of_ne _ p hready.symm, PTable.lists_proc, PTable.lists_list]
    · rw [hr'.slots_eq]
      simp only [Lists.requeue, Lists.add, update_of_ne hready, Lists.modify_list,
        Lists.remove, update_self, PTable.lists_proc, PTable.lists_list]
    · exact (hr'.slots_eq id).trans (requeue_list_of_ne _ p _ h2 h1)
  · rw [Lists.setPriority_other hne hst] at hr'
    refine ⟨hr'.globals, ?_, fun q hq => ?_, fun hst' => absurd hst' hst, fun _ => ?_⟩
    · rw [hr'.proc, Lists.modify_proc_self]
      rfl
    · rw [hr'.proc, Lists.modify_proc_of_ne _ _ hq]
      rfl
    · funext id
      rw [hr'.slots_eq]
      rfl

/-- `setpriority` finds a process exactly when one that is RUNNABLE, SLEEPING or RUNNING has the
pid, and changes that process only, and only when its priority differs. -/
theorem setpriority_exact (s : PTable) (h : s.ListInv) (hp : s.Placed)
    (hd : ∀ p q, (s.proc p).state ≠ .unused → (s.proc q).state ≠ .unused →
      (s.proc p).pid = (s.proc q).pid → p = q)
    (pID : BitVec 32) (prio : Nat) (hprio : prio ≤ maxPrio) :
    ∃ rc s', s.setpriority pID prio = .ok (rc, s') ∧ s'.ListInv ∧ s'.Placed ∧
      (rc = 0 ∨ rc = -1) ∧ (rc = 0 ↔ ∃ p, (s.proc p).pid = pID ∧ (s.proc p).Settable) ∧
      (rc = -1 → s' = s) ∧
      ∀ p, (s.proc p).pid = pID → (s.proc p).Settable →
        if (s.proc p).priority = prio then s' = s else s.PrioritySet p prio s' := by
  obtain ⟨hr, hw⟩ := (listInv_iff s).1 h
  have hpl := (placed_lists hw).1 hp
  have hsim := setpriority_simE hr hw pID hprio
  have heq : s.lists.setpriority pID prio = _ := Lists.setpriority_eq hw hpl
  rw [heq] at hsim
  cases ht : s.lists.setprioTarget pID with
  | none =>
    -- nobody has the pid
    have hno : ∀ p, (s.proc p).Settable → (s.proc p).pid ≠ pID := fun p hset =>
      Lists.setprioTarget_none hw hpl ht hset
    obtain ⟨rc, hrc⟩ : ∃ rc, s.setpriority pID prio = .ok (rc, s) :=
      setpriority_same h fun p hset hpid => absurd hpid (hno p hset)
    rw [ht, hrc] at hsim
    obtain ⟨s', he, -⟩ := hsim
    cases he
    refine ⟨-1, s, hrc, h, hp, .inr rfl, ⟨nofun, ?_⟩, fun _ => rfl, fun p hpid hset => ?_⟩
    · rintro ⟨p, hpid, hset⟩
      exact absurd hpid (hno p hset)
    · exact absurd hpid (hno p hset)
  | some p =>
    obtain ⟨hpid, hset⟩ := Lists.setprioTarget_some hw ht
    have hlive : ∀ {q : Slot}, (s.proc q).Settable → (s.proc q).state ≠ .unused := by
      rintro q (hst | hst | hst) he
      all_goals
        rw [hst] at he
        cases he
    have huniq : ∀ q, (s.proc q).pid = pID → (s.proc q).Settable → q = p := fun q hq hq' =>
      hd q p (hlive hq') (hlive hset) (hq.trans hpid.symm)
    have hex : ∃ p, (s.proc p).pid = pID ∧ (s.proc p).Settable := ⟨p, hpid, hset⟩
    rw [ht] at hsim
    by_cases hsame : (s.proc p).priority = prio
    · obtain ⟨rc, hrc⟩ : ∃ rc, s.setpriority pID prio = .ok (rc, s) :=
        setpriority_same h fun q hq hq' => by
          rw [huniq q hq' hq]
          exact hsame
      rw [hrc] at hsim
      obtain ⟨s', he, -⟩ := hsim
      cases he
      refine ⟨0, s, hrc, h, hp, .inl rfl, ⟨fun _ => hex, fun _ => rfl⟩, nofun, fun q hq hq' => ?_⟩
      rw [huniq q hq hq', if_pos hsame]
    · obtain ⟨s', hs', hr', hw'⟩ := hsim
      have hpl' : (s.lists.setPriority prio p).Placed := by
        rw [ht] at heq
        exact Lists.placedFrom_zero.1
          (((Lists.placedFrom_zero.2 hpl).setpriority hw pID prio).of_ok heq)
      refine ⟨0, s', hs', ?_, ?_, .inl rfl, ⟨fun _ => hex, fun _ => rfl⟩, nofun,
        fun q hq hq' => ?_⟩
      · rw [listInv_iff, hr'.lists_eq]
        exact ⟨hr', hw'⟩
      · rw [placed_lists (hr'.lists_eq ▸ hw'), hr'.lists_eq]
        exact hpl'
      · rw [huniq q hq hq', if_neg hsame]
        exact prioritySet_of_rep hr' hsame

/-- Init gives its child, which is RUNNABLE, the priority 3. -/
theorem setpriority_exact_child : ∃ s s' : PTable, s.slots (.ready 0) = [1] ∧
    s.setpriority 2 3 = .ok (0, s') ∧ s.PrioritySet 1 3 s' := by
  obtain ⟨k, hk, hP⟩ := Kernel.exists_reach
    [.scheduler, .forkAlloc 0, .kallocOk 0 1, .copyuvmOk 0 1, .forkReady 0 1]
    (P := fun k => decide (k.tab.Placed ∧ k.tab.slots (.ready 0) = [1] ∧
      ((k.tab.proc 1).pid = 2 ∧ (k.tab.proc 1).state = .runnable ∧ (k.tab.proc 1).priority = 0) ∧
      ∀ p q, (k.tab.proc p).state ≠ .unused → (k.tab.proc q).state ≠ .unused →
        (k.tab.proc p).pid = (k.tab.proc q).pid → p = q)) (by decide +kernel)
  obtain ⟨hp, hl, ⟨hpid, hst, hpr⟩, hd⟩ := of_decide_eq_true hP
  obtain ⟨rc, s', hs', -, -, -, hrc, -, hset⟩ :=
    setpriority_exact k.tab (listInv_of_reach hk) hp hd 2 3 (by decide)
  obtain rfl := hrc.2 ⟨1, hpid, .inl hst⟩
  have hset := hset 1 hpid (.inl hst)
  rw [if_neg (by rw [hpr]; decide)] at hset
  exact ⟨k.tab, s', hl, hs', hset⟩

end

end Xv6.Procs
