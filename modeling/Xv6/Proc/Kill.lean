import Xv6.Proc.Scan

/-!
# kill

The searches of `kill` decide what they return, and whether they wake the
target, inside a walk of the sleep list that returns in its first iteration.
With an empty sleep list the target is marked but `kill` returns -1; a sleeping
target is woken only at the head of the sleep list.  `kill_done_iff` says that
nothing else goes wrong.

The target is the first process with the pid in the order of the searches; it
is the only one as long as pids are unique.
-/

namespace Xv6.Procs

open Function List

/-- `kill`, table-scan version: the first slot with the pid. -/
def PTable.killScan (pid : BitVec 32) (s : PTable) : Int × PTable :=
  match (List.finRange NPROC).find? fun p => decide ((s.proc p).pid = pid) with
  | none => (-1, s)
  | some p =>
    let s := s.modify p fun q => { q with killed := true }
    (0, if (s.proc p).state = .sleeping then s.modify p fun q => { q with state := .runnable } else s)

/-- The fields of a process that has been killed. -/
def Proc.kill (q : Proc) : Proc :=
  { q with killed := true, state := if q.state = .sleeping then .runnable else q.state }

/-- Some process, in whatever state but UNUSED, has the pid. -/
def PTable.HasPid (pid : BitVec 32) (s : PTable) : Prop :=
  ∃ p, (s.proc p).state ≠ .unused ∧ (s.proc p).pid = pid

instance (pid : BitVec 32) (s : PTable) : Decidable (s.HasPid pid) :=
  inferInstanceAs (Decidable (∃ p, (s.proc p).state ≠ .unused ∧ (s.proc p).pid = pid))

/-- What `kill(pid)` has to do and return, from `s` to `s'`. -/
structure PTable.KillDone (pid : BitVec 32) (s : PTable) (rc : Int) (s' : PTable) : Prop where
  ret : rc = if s.HasPid pid then 0 else -1
  target : ∀ p, s.lists.killTarget pid = some p →
    s'.proc = update s.proc p (s.proc p).kill ∧
      ∀ q id, q ≠ p → (q ∈ s'.slots id ↔ q ∈ s.slots id)
  nothing : ¬ s.HasPid pid → s'.proc = s.proc ∧ s'.slots = s.slots
  /-- with one slot per pid, the table-scan version does the same -/
  scan : (∀ p q, (s.proc p).pid = pid → (s.proc q).pid = pid → p = q) →
    (∀ p, (s.proc p).pid = pid → (s.proc p).state ≠ .unused) →
    rc = (s.killScan pid).1 ∧ s'.proc = (s.killScan pid).2.proc

/-- There is no target; or some process sleeps, and a sleeping target heads the sleep list. -/
def PTable.KillOk (pid : BitVec 32) (s : PTable) : Prop :=
  ∀ p, s.lists.killTarget pid = some p → s.slots .sleep ≠ [] ∧
    ((s.proc p).state = .sleeping → s.head .sleep = some p)

instance PTable.decidableKillOk (pid : BitVec 32) (s : PTable) : Decidable (s.KillOk pid) :=
  inferInstanceAs (Decidable (∀ p, s.lists.killTarget pid = some p → _))

section
variable {s s' : PTable} {pid : BitVec 32}
variable {a : Lists}

theorem killTarget_some {p : Slot} (hw : a.WF) (h : a.killTarget pid = some p) :
    (a.proc p).state ≠ .unused ∧ (a.proc p).pid = pid :=
  ⟨(hw.mem_search p).1 (mem_of_find?_eq_some h), by simpa using find?_some h⟩

theorem killTarget_none (hw : a.WF) :
    a.killTarget pid = none ↔ ∀ p, (a.proc p).state ≠ .unused → (a.proc p).pid ≠ pid := by
  unfold Lists.killTarget
  simp only [find?_eq_none, hw.mem_search, decide_eq_true_eq]

theorem killTarget_none_iff (hw : s.lists.WF) :
    s.lists.killTarget pid = none ↔ ¬ s.HasPid pid := by
  rw [killTarget_none hw]
  unfold PTable.HasPid
  simp

/-- The scan finds the only slot with the pid. -/
theorem killScan_unique {p : Slot} (hp : (s.proc p).pid = pid)
    (huniq : ∀ p q, (s.proc p).pid = pid → (s.proc q).pid = pid → p = q) :
    (s.killScan pid).1 = 0 ∧ (s.killScan pid).2.proc = update s.proc p (s.proc p).kill := by
  have hf : (List.finRange NPROC).find? (fun p => decide ((s.proc p).pid = pid)) = some p := by
    cases hf : (List.finRange NPROC).find? fun p => decide ((s.proc p).pid = pid) with
    | none =>
      have := find?_eq_none.1 hf p (mem_finRange p)
      simp [hp] at this
    | some q =>
      have hq : (s.proc q).pid = pid := by simpa using find?_some hf
      rw [huniq q p hq hp]
  unfold PTable.killScan
  rw [hf]
  refine ⟨rfl, ?_⟩
  simp only [PTable.modify, update_self, update_idem]
  split
  · next hs => simp [Proc.kill, hs]
  · next hs => simp [Proc.kill, hs]

theorem killScan_none (h : ∀ p, (s.proc p).pid ≠ pid) : s.killScan pid = (-1, s) := by
  have hf : (List.finRange NPROC).find? (fun p => decide ((s.proc p).pid = pid)) = none := by
    rw [find?_eq_none]
    intro p _
    simpa using h p
  unfold PTable.killScan
  rw [hf]

/-! ## What the list version does -/

theorem kill_none (h : a.killTarget pid = none) : a.kill pid = (-1, a) := by
  have hno : ∀ p ∈ a.search, (a.proc p).pid ≠ pid := by
    intro p hp
    simpa using find?_eq_none.1 h p hp
  unfold Lists.kill Lists.searchFirst
  have hf : (a.search.find? fun p => decide ((a.proc p).pid = pid)) = none := h
  cases (a.list .sleep).head? with
  | none =>
    simp only [Bool.false_eq_true, if_false, Prod.mk.injEq, true_and]
    unfold Lists.mapSlots
    obtain ⟨g, proc, list⟩ := a
    simp only [Lists.mk.injEq, true_and, and_true]
    funext p
    split
    · next hp => rw [if_neg (by simpa using hno p hp)]
    · rfl
  | some z =>
    dsimp only
    rw [hf]
    rfl

theorem kill_empty (h : a.list .sleep = []) : (a.kill pid).1 = -1 := by
  unfold Lists.kill Lists.searchFirst
  rw [h]
  rfl

theorem kill_some {p z : Slot} (h : a.killTarget pid = some p)
    (hz : (a.list .sleep).head? = some z) :
    a.kill pid = (0, if p = z then
      (a.modify p fun q => { q with killed := true }).requeue .sleep (.ready 0) p
        fun q => { q with state := .runnable }
      else a.modify p fun q => { q with killed := true }) := by
  have hf : (a.search.find? fun p => decide ((a.proc p).pid = pid)) = some p := h
  unfold Lists.kill Lists.searchFirst
  simp only [hz, hf, if_true]

theorem killDone_of_none (hw : s.lists.WF)
    (h : s.lists.killTarget pid = none) {rc : Int} (hrc : rc = -1) (hr' : Rep s' s.lists) :
    s.KillDone pid rc s' := by
  have hno := (killTarget_none_iff hw).1 h
  have hproc : s'.proc = s.proc := hr'.proc
  have hslots : s'.slots = s.slots := funext hr'.slots_eq
  refine ⟨by rw [if_neg hno, hrc], fun p hp => ?_, fun _ => ⟨hproc, hslots⟩, fun _ hlive => ?_⟩
  · rw [h] at hp
    cases hp
  · have hnone : ∀ p, (s.proc p).pid ≠ pid := fun p hp => hno ⟨p, hlive p hp, hp⟩
    rw [killScan_none hnone]
    exact ⟨hrc, hproc⟩

theorem killDone_of_some (hw : s.lists.WF) {p : Slot} (h : s.lists.killTarget pid = some p)
    (hproc : s'.proc = update s.proc p (s.proc p).kill)
    (hslots : ∀ q id, q ≠ p → (q ∈ s'.slots id ↔ q ∈ s.slots id)) : s.KillDone pid 0 s' := by
  obtain ⟨hst, hpid⟩ := killTarget_some hw h
  have hhas : s.HasPid pid := ⟨p, hst, hpid⟩
  refine ⟨by rw [if_pos hhas], fun q hq => ?_, fun hno => absurd hhas hno, fun huniq _ => ?_⟩
  · rw [h] at hq
    cases hq
    exact ⟨hproc, hslots⟩
  · obtain ⟨h0, hp⟩ := killScan_unique hpid huniq
    exact ⟨h0.symm, hproc.trans hp.symm⟩

/-- From every reachable table `kill` comes back, and has done what it has to exactly when
`KillOk` holds before. -/
theorem kill_done_iff {k : Kernel PTable} (h : kernel.Reach k) (pid : BitVec 32) :
    ∃ rc s', k.tab.kill pid = .ok (rc, s') ∧ (k.tab.KillDone pid rc s' ↔ k.tab.KillOk pid) := by
  obtain ⟨hk, -⟩ := reach_krep h
  have hr : Rep k.tab k.tab.lists := hk.rep
  have hw : k.tab.lists.WF := hk.wf
  obtain ⟨s', hs, hr', -⟩ := kill_sim hr hw pid
  refine ⟨_, s', hs, ?_⟩
  cases ht : k.tab.lists.killTarget pid with
  | none =>
    rw [kill_none ht] at hr' ⊢
    refine iff_of_true (killDone_of_none hw ht rfl hr') fun p hp => ?_
    rw [ht] at hp
    cases hp
  | some p =>
    obtain ⟨hst, hpid⟩ := killTarget_some hw ht
    cases hz : (k.tab.lists.list .sleep).head? with
    | none =>
      -- nobody sleeps: the target is there, but `kill` returns -1
      have hnil : k.tab.lists.list .sleep = [] := by simpa using hz
      refine iff_of_false (fun hd => ?_) fun hok => (hok p ht).1 hnil
      have := hd.ret
      rw [if_pos ⟨p, hst, hpid⟩, kill_empty hnil] at this
      cases this
    | some z =>
      have hne : k.tab.slots .sleep ≠ [] := by
        intro hnil
        rw [PTable.lists_list, hnil] at hz
        cases hz
      rw [kill_some ht hz] at hr' ⊢
      by_cases hpz : p = z
      · subst hpz
        have hm : p ∈ k.tab.lists.list .sleep := mem_of_head? hz
        have hsl : (k.tab.proc p).state = .sleeping := hw.state .sleep p hm
        rw [if_pos rfl] at hr'
        refine iff_of_true (killDone_of_some hw ht ?_ fun q id hq => ?_) fun q hq => ?_
        · rw [hr'.proc, Lists.requeue_proc]
          simp [Lists.modify, Proc.kill, hsl]
        · rw [hr'.slots_eq]
          have hw₁ : (k.tab.lists.modify p fun q => { q with killed := true }).WF :=
            hw.modify rfl (hw.prio p)
          rw [hw₁.disjoint.mem_requeue hm]
          simp [hq]
        · rw [ht] at hq
          cases hq
          refine ⟨hne, fun _ => ?_⟩
          rw [hr.head_eq, hz]
      · rw [if_neg hpz] at hr'
        have hproc : s'.proc = update k.tab.proc p
            { k.tab.proc p with killed := true } := hr'.proc
        by_cases hsl : (k.tab.proc p).state = .sleeping
        · -- a sleeper behind the head is marked and sleeps on
          refine iff_of_false (fun hd => ?_) fun hok => ?_
          · have := congrFun (hd.target p ht).1 p
            rw [hproc, update_self, update_self] at this
            have := congrArg Proc.state this
            simp [Proc.kill, hsl] at this
          · have := (hok p ht).2 hsl
            rw [hr.head_eq, hz] at this
            exact hpz (Option.some.inj this).symm
        · refine iff_of_true (killDone_of_some hw ht ?_ fun q id _ => ?_) fun q hq => ?_
          · rw [hproc]
            simp [Proc.kill, hsl]
          · rw [hr'.slots_eq]
            rfl
          · rw [ht] at hq
            cases hq
            exact ⟨hne, fun hs => absurd hs hsl⟩

end

/-- Init, asleep in `wait` and alone on the sleep list, is killed by its child. -/
theorem kill_done_iff_head : ∃ k s', kernel.Reach k ∧ (k.tab.proc 0).state = .sleeping ∧
    k.tab.kill 1 = .ok (0, s') ∧ k.tab.KillDone 1 0 s' := by
  obtain ⟨k, hk, hP⟩ := Kernel.exists_reach
    [.scheduler, .forkAlloc 0, .kallocOk 0 1, .copyuvmOk 0 1, .forkReady 0 1, .wait 0, .scheduler]
    (P := fun k => decide ((k.tab.proc 0).state = .sleeping ∧ k.tab.HasPid 1 ∧ k.tab.KillOk 1))
    (by decide +kernel)
  obtain ⟨h0, hhas, hok⟩ := of_decide_eq_true hP
  obtain ⟨rc, s', hs, hiff⟩ := kill_done_iff hk 1
  have hd := hiff.2 hok
  have hrc : rc = 0 := by
    rw [hd.ret, if_pos hhas]
  rw [hrc] at hs hd
  exact ⟨k, s', hk, h0, hs, hd⟩

/-- Init runs and nobody sleeps: `kill(1)` marks init and returns -1. -/
theorem kill_running_fails : ∃ k s', kernel.Reach k ∧ (k.tab.proc 0).state = .running ∧
    (k.tab.proc 0).pid = 1 ∧ k.tab.kill 1 = .ok (-1, s') ∧ (s'.proc 0).killed = true ∧
    ¬ k.tab.KillDone 1 (-1) s' := by
  obtain ⟨k, hk, hP⟩ := Kernel.exists_reach [.scheduler]
    (P := fun k => decide ((k.tab.proc 0).state = .running ∧ (k.tab.proc 0).pid = 1) &&
      match k.tab.kill 1 with
      | .ok (rc, s') => decide (rc = -1 ∧ (s'.proc 0).killed = true)
      | .error _ => false) (by decide +kernel)
  simp only [Bool.and_eq_true, decide_eq_true_eq] at hP
  obtain ⟨⟨hst, hpid⟩, hP⟩ := hP
  cases hs : k.tab.kill 1 with
  | error e =>
    rw [hs] at hP
    cases hP
  | ok r =>
    obtain ⟨rc, s'⟩ := r
    rw [hs] at hP
    obtain ⟨rfl, hkilled⟩ := of_decide_eq_true hP
    refine ⟨k, s', hk, hst, hpid, hs, hkilled, fun hd => ?_⟩
    have := hd.ret
    rw [if_pos ⟨0, by rw [hst]; simp, hpid⟩] at this
    cases this

end Xv6.Procs
