import Xv6.Proc.Invariant

/-!
# One search pass of `wait`

Two nested loops walk the zombie list while an element of it is moved to the
free list.  The moved cell is the last of the free list, so its link is null and
both loops end there: one child is reaped, never two.
-/

namespace Xv6.Procs

/-- `c` went from the zombie list to the tail of the free list with its fields cleared; nothing
else changed. -/
structure PTable.Reaped (s : PTable) (c : Slot) (s' : PTable) : Prop where
  proc : s'.proc = Function.update s.proc c { s.proc c with
    state := .unused, pid := 0, parent := none, name := [], killed := false }
  zombie : s'.slots .zombie = (s.slots .zombie).erase c
  free : s'.slots .free = s.slots .free ++ [c]
  others : ∀ id, id ≠ .zombie → id ≠ .free → s'.slots id = s.slots id

/-- `p` has a child in one of the states that `wait` waits for. -/
def PTable.HasKid (p : Slot) (s : PTable) : Prop :=
  ∃ c, (s.proc c).parent = some p ∧ ((s.proc c).state = .embryo ∨ (s.proc c).state = .runnable ∨
    (s.proc c).state = .sleeping ∨ (s.proc c).state = .running)

section
variable {s s' : PTable} {a : Lists}

theorem reaped_of_rep (hr : Rep s a) {c : Slot} (hr' : Rep s' (a.reap c)) : s.Reaped c s' where
  proc := by
    rw [hr'.proc, hr.proc]
    funext q
    by_cases he : q = c
    · subst he
      rw [a.reap_proc_self, Function.update_self]
    · rw [a.reap_proc_of_ne he, Function.update_of_ne he]
  zombie := by
    rw [hr'.slots_eq, hr.slots_eq]
    simp [Lists.reap, Lists.requeue, Lists.add, Lists.remove]
  free := by
    rw [hr'.slots_eq, hr.slots_eq]
    simp [Lists.reap, Lists.requeue, Lists.add, Lists.remove]
  others id hz hf := by
    rw [hr'.slots_eq, hr.slots_eq, reap_list a c hz hf]

theorem zombieChild_none (hw : a.WF) {p : Slot} (h : a.zombieChild p = none) (c : Slot)
    (hc : (a.proc c).state = .zombie) : (a.proc c).parent ≠ some p := by
  simpa using List.find?_eq_none.1 h c ((hw.mem_iff (by simp) c).2 hc)

/-- Without a zombie child, the children that the searches meet are the others. -/
theorem hasKid_search (hr : Rep s a) (hw : a.WF) {p : Slot} (h : a.zombieChild p = none)
    (hfree : ∀ c, (a.proc c).state = .unused → (a.proc c).parent = none) :
    a.hasKid p a.search = true ↔ s.HasKid p := by
  unfold Lists.hasKid PTable.HasKid
  rw [hr.proc, List.any_eq_true]
  refine exists_congr fun c => ?_
  rw [hw.mem_search, decide_eq_true_eq]
  constructor
  · rintro ⟨hst, hpar⟩
    refine ⟨hpar, ?_⟩
    have hz : (a.proc c).state ≠ .zombie := fun hz => zombieChild_none hw h c hz hpar
    cases hs : (a.proc c).state <;> simp_all
  · rintro ⟨hpar, hst⟩
    refine ⟨fun hu => ?_, hpar⟩
    rw [hfree c hu] at hpar
    cases hpar

end

/-- One search pass, from every reachable table and for every caller: it reaps exactly one
zombie child when there is one and returns its pid; otherwise it changes nothing, returns -1,
and `havekids` says whether the caller has a child at all. -/
theorem waitPass_reaps {k : Kernel PTable} (h : kernel.Reach k) (p : Slot) :
    ∃ w, k.tab.waitPass p = .ok w ∧
      ((∃ c, (k.tab.proc c).state = .zombie ∧ (k.tab.proc c).parent = some p) →
        ∃ c, (k.tab.proc c).state = .zombie ∧ (k.tab.proc c).parent = some p ∧
          w.pid = (k.tab.proc c).pid ∧ k.tab.Reaped c w.s) ∧
      ((∀ c, (k.tab.proc c).state = .zombie → (k.tab.proc c).parent ≠ some p) →
        w.pid = -1 ∧ w.s.proc = k.tab.proc ∧ w.s.slots = k.tab.slots ∧
          (w.havekids = true ↔ k.tab.HasKid p)) := by
  obtain ⟨hk, hf⟩ := reach_krep h
  obtain ⟨s', hs, hr', -⟩ := waitPass_sim hk.rep hk.wf p
  refine ⟨_, hs, ?_⟩
  unfold Lists.waitPass at hr' ⊢
  cases hz : k.lists.tab.zombieChild p with
  | some c =>
    have hst : (k.tab.proc c).state = .zombie :=
      hk.wf.state .zombie c (List.mem_of_find?_eq_some hz)
    have hpar : (k.lists.tab.proc c).parent = some p := by simpa using List.find?_some hz
    rw [hz] at hr'
    exact ⟨fun _ => ⟨c, hst, hpar, rfl, reaped_of_rep hk.rep hr'⟩,
      fun hno => absurd hpar (hno c hst)⟩
  | none =>
    rw [hz] at hr'
    refine ⟨fun ⟨c, hst, hpar⟩ => absurd hpar (zombieChild_none hk.wf hz c hst), fun _ => ?_⟩
    exact ⟨rfl, hr'.proc, funext hr'.slots_eq, hasKid_search hk.rep hk.wf hz hf.free⟩

/-- Two zombies: one of them is left for the next pass. -/
theorem waitPass_reaps_first : ∃ k w c, kernel.Reach k ∧ k.tab.slots .zombie = [1, 2] ∧
    k.tab.waitPass 0 = .ok w ∧ w.pid = (k.tab.proc c).pid ∧ k.tab.Reaped c w.s := by
  obtain ⟨k, hk, hP⟩ := Kernel.exists_reach
    [.scheduler, .forkAlloc 0, .kallocOk 0 1, .copyuvmOk 0 1, .forkReady 0 1,
      .forkAlloc 0, .kallocOk 0 2, .copyuvmOk 0 2, .forkReady 0 2, .yield 0, .scheduler, .exit 1,
      .scheduler, .exit 2]
    (P := fun k => decide (k.tab.slots .zombie = [1, 2] ∧ (k.tab.proc 1).state = .zombie ∧
      (k.tab.proc 1).parent = some 0)) (by decide +kernel)
  obtain ⟨hz, hst, hpar⟩ := of_decide_eq_true hP
  obtain ⟨w, hw, hreap, -⟩ := waitPass_reaps hk 0
  obtain ⟨c, -, -, hpid, hc⟩ := hreap ⟨1, hst, hpar⟩
  exact ⟨k, w, c, hk, hz, hw, hpid, hc⟩

end Xv6.Procs
