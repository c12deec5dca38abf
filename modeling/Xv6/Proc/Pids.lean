import Xv6.Proc.Kill
import Xv6.Proc.Killed
import Xv6.Proc.Wait

/-!
# Process ids

`allocproc` hands out `nextpid++`, a 32-bit counter, without a look at the pids in use.  `fork` and
`wait` return pids and keep 0 and -1 for themselves; `kill` and `setpriority` find their process by
its pid.  As long as `allocproc` never comes to a pid that is in use, or to 0 or -1, the live
processes have one pid each and the calls reach the process that is meant (`Addressed`).  Nothing
else can spoil it: no other action writes the pid of a process that is not free.  But a process may
go on calling `fork` for as long as it likes, and then the counter comes back to its own pid.
-/

namespace Xv6.Procs

open Function

/-- One live process per pid, and none with a pid that `fork` and `wait` return for another
reason. -/
structure Pids (proc : Slot → Proc) : Prop where
  unique : ∀ p q, (proc p).state ≠ .unused → (proc q).state ≠ .unused →
    (proc p).pid = (proc q).pid → p = q
  zero : ∀ p, (proc p).state ≠ .unused → (proc p).pid ≠ 0
  error : ∀ p, (proc p).state ≠ .unused → (proc p).pid ≠ -1

/-- The calls that go by the pid reach the process that has it, and no other; `wait` returns -1 only
if no child has exited. -/
structure PTable.Addressed (s : PTable) : Prop where
  kill : ∀ p, (s.proc p).state ≠ .unused → ∃ rc s', s.kill (s.proc p).pid = .ok (rc, s') ∧
    (s'.proc p).killed = true ∧ ∀ q, q ≠ p → s'.proc q = s.proc q
  setpriority : ∀ p prio rc s', (s.proc p).Settable → prio ≤ maxPrio →
    s.setpriority (s.proc p).pid prio = .ok (rc, s') →
    (s'.proc p).priority = prio ∧ ∀ q, q ≠ p → s'.proc q = s.proc q
  wait : ∀ p, ∃ w, s.waitPass p = .ok w ∧ (w.pid = -1 ↔
    ∀ c, (s.proc c).state = .zombie → (s.proc c).parent ≠ some p)

/-- `allocproc` does not hand out 0, -1 or a pid in use. -/
def freshPid (k : Kernel PTable) : Action → Prop
  | .forkAlloc _ => k.tab.head .free ≠ none →
      k.tab.nextpid ≠ 0 ∧ k.tab.nextpid ≠ -1 ∧ ¬ k.tab.HasPid k.tab.nextpid
  | _ => True

instance (k : Kernel PTable) (act : Action) : Decidable (freshPid k act) := by
  induction act using Action.casesOn <;> dsimp only [freshPid] <;> infer_instance

/-! ## Who writes pids -/

theorem pid_unscheduled : Unscheduled fun q q' => q'.pid = q.pid :=
  ⟨⟨fun _ => rfl, fun _ _ _ h h' => h'.trans h, fun _ _ => rfl, fun _ _ => rfl, fun _ _ => rfl,
    fun _ _ _ _ _ => rfl⟩, fun _ _ _ => rfl, fun _ _ => rfl, fun _ _ _ _ _ _ => rfl⟩

/-- `wait` clears the pid of the child it frees, and no other. -/
theorem waitTurn_pid {a : Lists} (hw : a.WF) {p q : Slot} (hp : (a.proc p).state = .running)
    (back : Bool) (hq : ((a.waitTurn back p).2.proc q).state ≠ .unused) :
    ((a.waitTurn back p).2.proc q).pid = (a.proc q).pid := by
  have hR := pid_unscheduled
  obtain ⟨b, d, hb, hd, hr⟩ := a.waitTurn_cases p back
  have hbq : (b.proc q).pid = (a.proc q).pid := by
    rcases hb with rfl | rfl
    · rfl
    · exact (Lists.Keeps.modify hR.toMinor rfl).proc q
  -- the child that is freed is the only one whose pid changes
  have hdq : (d.proc q).pid = (b.proc q).pid ∨ q ≠ p ∧ (d.proc q).state = .unused := by
    rcases hd with rfl | ⟨c, hc, rfl⟩
    · exact .inl rfl
    · by_cases he : q = c
      · subst he
        rw [b.reap_proc_self]
        exact .inr ⟨(Lists.zombie_of_turn hw hp hb hc).2.symm, rfl⟩
      · rw [b.reap_proc_of_ne he]
        exact .inl rfl
  rcases hr with ⟨-, hr⟩ | ⟨-, hr⟩
  · rw [hr] at hq ⊢
    rcases hdq with hdq | ⟨-, hst⟩
    · exact hdq.trans hbq
    · exact absurd hst hq
  · rw [hr] at hq ⊢
    rcases hdq with hdq | ⟨hne, hst⟩
    · exact ((Lists.sleep_keeps hR d p (.proc p)).proc q).trans (hdq.trans hbq)
    · rw [d.sleep_proc_of_ne p _ hne] at hq
      exact absurd hst hq

/-- No action but `allocproc` gives a pid to a process or makes a free slot a process. -/
theorem pid_step {l l' : Kernel Lists} (hw : l.tab.WF) (hf : l.Forks) {act : Action}
    (hc : l.canL act) (h : l.execL act = .ok l') (hact : ∀ p, act ≠ .forkAlloc p) {q : Slot}
    (hq : (l'.tab.proc q).state ≠ .unused) :
    (l.tab.proc q).state ≠ .unused ∧ (l'.tab.proc q).pid = (l.tab.proc q).pid := by
  have hR := pid_unscheduled
  constructor
  · intro hst
    have hturn := turn_step hw hf hc h q
    rw [hst] at hturn
    generalize (l'.tab.proc q).state = st at hturn hq
    cases hturn with
    | same => exact hq rfl
    | resched ha _ => exact ha
    | alloc he => exact hact _ he
    | exit _ ha => exact ha
  · cases act with
    | forkAlloc p => exact absurd rfl (hact p)
    | wait p => cases h; exact waitTurn_pid hw hc.1 _ hq
    | kill p pid => cases h; exact (Lists.kill_keeps hR.toMinor _ pid fun _ _ => rfl).proc q
    | trapKill p =>
      cases h
      have hkeep : Lists.Keeps (fun q q' => q'.pid = q.pid) l.tab
          (l.tab.modify p fun x => { x with killed := true }) := .modify hR.toMinor rfl
      exact hkeep.proc q
    | _ => exact keeps_step hR hw h trivial q

/-! ## Steps -/

section
variable {l l' : Kernel Lists} {act : Action}

theorem Pids.step (hP : Pids l.tab.proc) (hw : l.tab.WF) (hf : l.Forks) (hc : l.canL act)
    (h : l.execL act = .ok l') (hact : ∀ p, act ≠ .forkAlloc p) : Pids l'.tab.proc where
  unique p q hp hq he := by
    obtain ⟨hp', hpp⟩ := pid_step hw hf hc h hact hp
    obtain ⟨hq', hqp⟩ := pid_step hw hf hc h hact hq
    rw [hpp, hqp] at he
    exact hP.unique p q hp' hq' he
  zero p hp := by
    obtain ⟨hp', hpp⟩ := pid_step hw hf hc h hact hp
    rw [hpp]
    exact hP.zero p hp'
  error p hp := by
    obtain ⟨hp', hpp⟩ := pid_step hw hf hc h hact hp
    rw [hpp]
    exact hP.error p hp'

/-- `allocproc` keeps the pids apart exactly if the one it hands out is fresh. -/
theorem Pids.allocproc_iff {a : Lists} (hP : Pids a.proc) (hw : a.WF) {np : Slot}
    (hnp : a.allocproc.1 = some np) : Pids a.allocproc.2.proc ↔
      a.nextpid ≠ 0 ∧ a.nextpid ≠ -1 ∧
        ∀ p, (a.proc p).state ≠ .unused → (a.proc p).pid ≠ a.nextpid := by
  have hfree := allocproc_free hw hnp
  have hself : a.allocproc.2.proc np = { a.proc np with state := .embryo, pid := a.nextpid } := by
    rw [allocproc_proc hnp, if_pos rfl]
  have hother : ∀ p, p ≠ np → a.allocproc.2.proc p = a.proc p := by
    intro p hp
    rw [allocproc_proc hnp, if_neg hp]
  have hlive : (a.allocproc.2.proc np).state ≠ .unused := by
    rw [hself]
    nofun
  have hpid : (a.allocproc.2.proc np).pid = a.nextpid := by
    rw [hself]
  have hne : ∀ p, (a.proc p).state ≠ .unused → p ≠ np := by
    rintro p hp rfl
    exact hp hfree
  constructor
  · intro h
    refine ⟨hpid ▸ h.zero np hlive, hpid ▸ h.error np hlive, fun p hp he => ?_⟩
    have hsame := hother p (hne p hp)
    refine hne p hp (h.unique p np ?_ hlive ?_)
    · rw [hsame]
      exact hp
    · rw [hsame, hpid, he]
  · rintro ⟨h0, h1, hno⟩
    have hcases : ∀ p, (a.allocproc.2.proc p).state ≠ .unused →
        p = np ∨ p ≠ np ∧ (a.proc p).state ≠ .unused := by
      intro p hp
      by_cases he : p = np
      · exact .inl he
      · rw [hother p he] at hp
        exact .inr ⟨he, hp⟩
    refine ⟨fun p q hp hq he => ?_, fun p hp => ?_, fun p hp => ?_⟩
    · rcases hcases p hp with rfl | ⟨hpn, hp⟩ <;> rcases hcases q hq with rfl | ⟨hqn, hq⟩
      · rfl
      · rw [hpid, hother q hqn] at he
        exact absurd he.symm (hno q hq)
      · rw [hpid, hother p hpn] at he
        exact absurd he (hno p hp)
      · rw [hother p hpn, hother q hqn] at he
        exact hP.unique p q hp hq he
    · rcases hcases p hp with rfl | ⟨hpn, hp⟩
      · rw [hpid]
        exact h0
      · rw [hother p hpn]
        exact hP.zero p hp
    · rcases hcases p hp with rfl | ⟨hpn, hp⟩
      · rw [hpid]
        exact h1
      · rw [hother p hpn]
        exact hP.error p hp

end

theorem userinit_pids (ticks : BitVec 32) : Pids (Lists.userinit ticks).proc := by
  have hinit : ∀ p, ((Lists.userinit ticks).proc p).state ≠ .unused → p = 0 := by
    intro p hp
    by_contra he
    rw [userinit_proc_of_ne ticks he] at hp
    exact hp rfl
  have hpid : ((Lists.userinit ticks).proc 0).pid = 1 := rfl
  refine ⟨fun p q hp hq _ => (hinit p hp).trans (hinit q hq).symm, fun p hp => ?_, fun p hp => ?_⟩
  · rw [hinit p hp, hpid]
    decide
  · rw [hinit p hp, hpid]
    decide

/-- Taking a step from a state with sound pids. -/
theorem pids_step_iff {k k' : Kernel PTable} (hk : KRep k k.lists) (hf : k.lists.Forks)
    (hP : Pids k.tab.proc) {act : Action} (h : kernel.step k act k') :
    Pids k'.tab.proc ↔ freshPid k act := by
  obtain ⟨hc, he, -⟩ := step_krep hk hf h
  cases act with
  | forkAlloc p =>
    have hhead : k.tab.head .free = (k.lists.tab.list .free).head? := hk.rep.head_eq .free
    unfold Kernel.execL at he
    dsimp only at he
    unfold freshPid
    dsimp only
    rcases allocproc_cases k.lists.tab with ⟨hnone, hsame⟩ | ⟨np, hnp, halloc⟩
    · rw [hnone, hsame] at he
      have htab : k'.tab.proc = k.tab.proc := congrArg (fun l => l.tab.proc) (Except.ok.inj he).symm
      have hnil : (k.lists.tab.list .free).head? = none := by
        unfold Lists.allocproc at hnone
        split at hnone
        · next hl => exact hl
        · cases hnone
      rw [htab, hhead, hnil]
      exact ⟨fun _ hn => absurd rfl hn, fun _ => hP⟩
    · have hsome : k.lists.tab.allocproc.1 = some np := by rw [halloc]
      rw [hsome] at he
      have htab : k'.tab.proc = k.lists.tab.allocproc.2.proc :=
        congrArg (fun l => l.tab.proc) (Except.ok.inj he).symm
      rw [htab, hhead, hnp]
      refine (Pids.allocproc_iff hP hk.wf hsome).trans ⟨fun h _ => ⟨h.1, h.2.1, ?_⟩, fun h => ?_⟩
      · rintro ⟨p, hp, hpid⟩
        exact h.2.2 p hp hpid
      · obtain ⟨h0, h1, hno⟩ := h nofun
        exact ⟨h0, h1, fun p hp hpid => hno ⟨p, hp, hpid⟩⟩
  | _ => exact iff_of_true (hP.step hk.wf hf hc he nofun) trivial

/-! ## What the pids are for -/

section
variable {a : Lists} {p : Slot}

theorem Pids.killTarget (hP : Pids a.proc) (hw : a.WF) (hp : (a.proc p).state ≠ .unused) :
    a.killTarget (a.proc p).pid = some p := by
  cases ht : a.killTarget (a.proc p).pid with
  | none => exact absurd rfl ((killTarget_none hw).1 ht p hp)
  | some q =>
    obtain ⟨hq, hpid⟩ := killTarget_some hw ht
    rw [hP.unique q p hq hp hpid]

theorem Pids.kill (hP : Pids a.proc) (hw : a.WF) (hp : (a.proc p).state ≠ .unused) :
    ((a.kill (a.proc p).pid).2.proc p).killed = true ∧
      ∀ q, q ≠ p → (a.kill (a.proc p).pid).2.proc q = a.proc q := by
  have hmem : p ∈ a.search := (hw.mem_search p).2 hp
  have huniq : ∀ q ∈ a.search, (a.proc q).pid = (a.proc p).pid → q = p :=
    fun q hq he => hP.unique q p ((hw.mem_search q).1 hq) hp he
  unfold Lists.kill Lists.searchFirst
  dsimp only
  split
  · -- nobody sleeps: every process with the pid is marked
    dsimp only [Lists.mapSlots]
    rw [if_pos hmem]
    constructor
    · simp
    · intro q hq
      split
      · next hm => rw [if_neg (by simpa using fun he => hq (huniq q hm he))]
      · rfl
  · next z hz =>
    have hfind : a.search.find? (fun q => decide ((a.proc q).pid = (a.proc p).pid)) = some p :=
      hP.killTarget hw hp
    rw [hfind]
    dsimp only
    split
    · refine ⟨?_, fun q hq => ?_⟩
      · rw [Lists.requeue_proc, Lists.modify_proc_self, Lists.modify_proc_self]
      · rw [Lists.requeue_proc, Lists.modify_proc_of_ne _ _ hq, Lists.modify_proc_of_ne _ _ hq]
    · refine ⟨?_, fun q hq => ?_⟩
      · rw [Lists.modify_proc_self]
      · rw [Lists.modify_proc_of_ne _ _ hq]

theorem Lists.WF.mem_settable (hw : a.WF) (hp : (a.proc p).Settable) :
    p ∈ a.queue ++ a.list .sleep ++ a.list .running := by
  rw [List.mem_append, List.mem_append]
  rcases hp with hst | hst | hst
  · obtain ⟨id, hm⟩ := hw.total p
    have hid := hw.state id p hm
    rw [hst] at hid
    cases id with
    | ready i =>
      refine .inl (.inl (List.mem_flatMap.2 ⟨i, List.mem_range.2 ?_, hm⟩))
      by_contra hi
      rw [hw.level i (by omega)] at hm
      cases hm
    | _ => cases hid
  · exact .inl (.inr ((hw.mem_iff (by simp) p).2 hst))
  · exact .inr ((hw.mem_iff (by simp) p).2 hst)

theorem Pids.setprioTarget (hP : Pids a.proc) (hw : a.WF) (hp : (a.proc p).Settable) :
    a.setprioTarget (a.proc p).pid = some p := by
  have hlive : ∀ q, (a.proc q).Settable → (a.proc q).state ≠ .unused := by
    rintro q (h | h | h) <;> (rw [h]; nofun)
  cases ht : a.setprioTarget (a.proc p).pid with
  | none => exact absurd (decide_eq_true rfl) (List.find?_eq_none.1 ht p (hw.mem_settable hp))
  | some q =>
    obtain ⟨hpid, hset⟩ := Lists.setprioTarget_some hw ht
    rw [hP.unique q p (hlive q hset) (hlive p hp) hpid]

theorem Pids.setpriority (hP : Pids a.proc) (hw : a.WF) (hp : (a.proc p).Settable) (prio : Nat) :
    Post (fun _ => True)
      (fun r => (r.2.proc p).priority = prio ∧ ∀ q, q ≠ p → r.2.proc q = a.proc q)
      (a.setpriority (a.proc p).pid prio) := by
  have ht := hP.setprioTarget hw hp
  refine Lists.setpriority_post (G := fun b => (b.proc p).priority = prio ∧
    ∀ q, q ≠ p → b.proc q = a.proc q) hw _ prio (fun h0 => ?_) (fun i q _ hq _ => ?_)
    fun q _ hq _ => ?_
  · exact ⟨h0 p ht, fun _ _ => rfl⟩
  · cases ht.symm.trans hq
    refine Lists.requeueAt_post (fun _ => ⟨?_, fun q hq => ?_⟩) fun _ => trivial
    · rw [Lists.requeue_proc, Lists.modify_proc_self]
    · rw [Lists.requeue_proc, Lists.modify_proc_of_ne _ _ hq]
  · cases ht.symm.trans hq
    refine ⟨?_, fun q hq => ?_⟩
    · rw [Lists.modify_proc_self]
    · rw [Lists.modify_proc_of_ne _ _ hq]

end

theorem Pids.addressed {k : Kernel PTable} (h : kernel.Reach k) (hP : Pids k.tab.proc) :
    k.tab.Addressed where
  kill p hp := by
    obtain ⟨hk, -⟩ := reach_krep h
    obtain ⟨s', hs, hr, -⟩ := kill_sim hk.rep hk.wf (k.tab.proc p).pid
    refine ⟨_, s', hs, ?_⟩
    rw [hr.proc]
    exact Pids.kill (a := k.lists.tab) hP hk.wf hp
  setpriority p prio rc s' hp hprio hs := by
    obtain ⟨hk, -⟩ := reach_krep h
    have hsim := setpriority_simE hk.rep hk.wf (k.tab.proc p).pid hprio
    have hpost := Pids.setpriority (a := k.lists.tab) hP hk.wf hp prio
    cases hl : k.lists.tab.setpriority (k.tab.proc p).pid prio with
    | error e =>
      rw [hl, hs] at hsim
      cases hsim
    | ok r =>
      rw [hl, hs] at hsim
      obtain ⟨s₁, hs₁, hr, -⟩ := hsim
      cases hs₁
      rw [hr.proc]
      exact hpost.of_ok hl
  wait p := by
    obtain ⟨w, hw, hreap, hnone⟩ := waitPass_reaps h p
    refine ⟨w, hw, fun hpid c hc hpar => ?_, fun hno => (hnone hno).1⟩
    obtain ⟨c', hc', -, hpid', -⟩ := hreap ⟨c, hc, hpar⟩
    refine hP.error c' ?_ (hpid'.symm.trans hpid)
    rw [hc']
    nofun

/-! ## Whole runs -/

/-- As long as `allocproc` never comes to a pid in use, to 0 or to -1, the live processes have one
pid each in every state that is reached, and the calls reach the process that is meant.  From there
the next step spoils it exactly if it is an `allocproc` that does. -/
theorem pids_stay_unique {k : Kernel PTable} (h : (kernel.restrict freshPid).Reach k) :
    Pids k.tab.proc ∧ k.tab.Addressed ∧
      ∀ act k', kernel.step k act k' → (Pids k'.tab.proc ↔ freshPid k act) := by
  have hreach : Pids k.tab.proc := by
    induction h with
    | init h =>
      obtain ⟨ticks, hk⟩ := init_krep h
      rw [hk.rep.proc]
      exact userinit_pids ticks
    | step hr h ih =>
      obtain ⟨hk, hf⟩ := reach_krep hr.of_restrict
      exact (pids_step_iff hk hf ih h.2).2 h.1
  obtain ⟨hk, hf⟩ := reach_krep h.of_restrict
  exact ⟨hreach, hreach.addressed h.of_restrict, fun act k' hs => pids_step_iff hk hf hreach hs⟩

/-- Init forks a child with pid 2. -/
theorem pids_stay_unique_forked : ∃ k, (kernel.restrict freshPid).Reach k ∧
    (k.tab.proc 1).state = .runnable ∧ (k.tab.proc 1).pid = 2 ∧ Pids k.tab.proc := by
  obtain ⟨k, hk, hP⟩ := Kernel.exists_reach_restrict freshPid
    [.scheduler, .forkAlloc 0, .kallocOk 0 1, .copyuvmOk 0 1, .forkReady 0 1]
    (P := fun k => decide ((k.tab.proc 1).state = .runnable ∧ (k.tab.proc 1).pid = 2))
    (by decide +kernel)
  obtain ⟨hst, hpid⟩ := of_decide_eq_true hP
  exact ⟨k, hk, hst, hpid, (pids_stay_unique hk).1⟩

/-! ## The counter comes round -/

/-- A step over the lists can be taken over the table. -/
theorem reach_step {k : Kernel PTable} (h : kernel.Reach k) {a : Action} {l : Kernel Lists}
    (hc : k.lists.canL a) (he : k.lists.execL a = .ok l) :
    ∃ k', kernel.Reach k' ∧ k'.lists = l := by
  obtain ⟨hk, hf⟩ := reach_krep h
  have hcan := (hk.can_iff a).2 hc
  have hs := exec_sim hk hf hcan
  rw [he] at hs
  obtain ⟨k', hk', hr⟩ := hs
  exact ⟨k', .step h ⟨hcan, hk'⟩, hr.lists_eq⟩

section
variable {k : Kernel PTable} {p : Slot}

/-- `fork`, up to the call of `kalloc`. -/
theorem fork_begins (h : kernel.Reach k) (hp : (k.tab.proc p).state = .running)
    (hc : k.ctl p = .idle) (hfree : k.lists.tab.list .free ≠ []) :
    ∃ np k', np ≠ p ∧ kernel.Reach k' ∧ k'.tab.proc p = k.tab.proc p ∧
      k'.ctl p = .fork np .alloc ∧ (k'.tab.proc np).state = .embryo ∧
      (k'.tab.proc np).pid = k.tab.nextpid ∧ k'.tab.nextpid = k.tab.nextpid + 1 := by
  obtain ⟨hk, -⟩ := reach_krep h
  rcases allocproc_cases k.lists.tab with ⟨hnone, -⟩ | ⟨np, hnp, halloc⟩
  · unfold Lists.allocproc at hnone
    split at hnone
    · next hl => exact absurd (List.head?_eq_none_iff.1 hl) hfree
    · cases hnone
  have hsome : k.lists.tab.allocproc.1 = some np := by rw [halloc]
  have hne : np ≠ p := by
    rintro rfl
    have := allocproc_free hk.wf hsome
    rw [show (k.lists.tab.proc np).state = .running from hp] at this
    cases this
  obtain ⟨k', hr, hl⟩ := reach_step h (a := .forkAlloc p)
    (l := k.lists.set p (.fork np .alloc) k.lists.tab.allocproc.2) ⟨hp, hc⟩ (by
      unfold Kernel.execL
      dsimp only
      rw [hsome])
  have hproc : k'.tab.proc = k.lists.tab.allocproc.2.proc := congrArg (fun l => l.tab.proc) hl
  have hctl : k'.ctl = update k.ctl p (.fork np .alloc) := congrArg Kernel.ctl hl
  have hnext : k'.tab.nextpid = k.lists.tab.allocproc.2.nextpid :=
    congrArg (fun l => l.tab.nextpid) hl
  refine ⟨np, k', hne, hr, ?_, ?_, ?_, ?_, ?_⟩
  · rw [hproc, allocproc_proc hsome, if_neg hne.symm]
    rfl
  · rw [hctl, update_self]
  · rw [hproc, allocproc_proc hsome, if_pos rfl]
  · rw [hproc, allocproc_proc hsome, if_pos rfl]
    rfl
  · rw [hnext, halloc]
    rfl

/-- A `fork` that finds no memory for a kernel stack has used up a pid, and nothing else. -/
theorem fork_fails (h : kernel.Reach k) (hp : (k.tab.proc p).state = .running)
    (hc : k.ctl p = .idle) (hfree : k.lists.tab.list .free ≠ []) :
    ∃ k', kernel.Reach k' ∧ k'.tab.proc p = k.tab.proc p ∧ k'.ctl p = .idle ∧
      k'.lists.tab.list .free ≠ [] ∧ k'.tab.nextpid = k.tab.nextpid + 1 := by
  obtain ⟨np, k₁, hne, h₁, hp₁, hc₁, -, -, hn₁⟩ := fork_begins h hp hc hfree
  have hrun : (k₁.lists.tab.proc p).state = .running := by
    rw [← hp, ← hp₁]
    rfl
  obtain ⟨k₂, h₂, hl⟩ := reach_step h₁ (a := .kallocFail p np)
    (l := k₁.lists.set p .idle (k₁.lists.tab.allocFail np)) ⟨hrun, hc₁⟩ rfl
  have hproc : k₂.tab.proc = (k₁.lists.tab.allocFail np).proc := congrArg (fun l => l.tab.proc) hl
  have hctl : k₂.ctl = update k₁.ctl p .idle := congrArg Kernel.ctl hl
  have hnext : k₂.tab.nextpid = k₁.tab.nextpid := congrArg (fun l => l.tab.nextpid) hl
  have hlist : k₂.lists.tab.list = (k₁.lists.tab.allocFail np).list :=
    congrArg (fun l => l.tab.list) hl
  refine ⟨k₂, h₂, ?_, ?_, ?_, hnext.trans hn₁⟩
  · rw [hproc, ← hp₁, Lists.allocFail, Lists.requeue_proc, Lists.modify_proc_of_ne _ _ hne.symm]
    rfl
  · rw [hctl, update_self]
  · rw [hlist]
    simp [Lists.allocFail, Lists.requeue, Lists.add]

/-- After `n` such calls, `n` pids are used up. -/
theorem forks_fail (h : kernel.Reach k) (hp : (k.tab.proc p).state = .running)
    (hc : k.ctl p = .idle) (hfree : k.lists.tab.list .free ≠ []) (n : Nat) :
    ∃ k', kernel.Reach k' ∧ k'.tab.proc p = k.tab.proc p ∧ k'.ctl p = .idle ∧
      k'.lists.tab.list .free ≠ [] ∧ k'.tab.nextpid = k.tab.nextpid + BitVec.ofNat 32 n := by
  induction n with
  | zero => exact ⟨k, h, rfl, hc, hfree, by simp⟩
  | succ n ih =>
    obtain ⟨k₁, h₁, hp₁, hc₁, hf₁, hn₁⟩ := ih
    obtain ⟨k₂, h₂, hp₂, hc₂, hf₂, hn₂⟩ := fork_fails h₁ (by rw [hp₁, hp]) hc₁ hf₁
    refine ⟨k₂, h₂, hp₂.trans hp₁, hc₂, hf₂, ?_⟩
    rw [hn₂, hn₁, BitVec.add_assoc, BitVec.ofNat_add]
    rfl

end

/-- Init calls `fork` over and over without success, until `nextpid` has come round to 1.  The child
of the next call has the pid of init. -/
theorem pid_reused : ∃ k np, kernel.Reach k ∧ (k.tab.proc 0).state = .running ∧
    (k.tab.proc 0).pid = 1 ∧ np ≠ 0 ∧ (k.tab.proc np).state = .embryo ∧ (k.tab.proc np).pid = 1 ∧
    ¬ Pids k.tab.proc := by
  obtain ⟨k, hk, hP⟩ := Kernel.exists_reach [.scheduler]
    (P := fun k => decide ((k.tab.proc 0).state = .running ∧ (k.tab.proc 0).pid = 1 ∧
      k.ctl 0 = .idle ∧ k.tab.lists.list .free ≠ [] ∧ k.tab.nextpid = 2)) (by decide +kernel)
  obtain ⟨hst, hpid, hc, hfree, hnext⟩ := of_decide_eq_true hP
  obtain ⟨k₁, h₁, hp₁, hc₁, hf₁, hn₁⟩ := forks_fail hk hst hc hfree (2 ^ 32 - 1)
  obtain ⟨np, k₂, hne, h₂, hp₂, -, hemb, hpid₂, -⟩ := fork_begins h₁ (by rw [hp₁, hst]) hc₁ hf₁
  have hst₂ : (k₂.tab.proc 0).state = .running := by rw [hp₂, hp₁, hst]
  have hone : (k₂.tab.proc 0).pid = 1 := by rw [hp₂, hp₁, hpid]
  have hnp : (k₂.tab.proc np).pid = 1 := by
    rw [hpid₂, hn₁, hnext]
    decide
  refine ⟨k₂, np, h₂, hst₂, hone, hne, hemb, hnp, fun hP => hne (hP.unique np 0 ?_ ?_ ?_)⟩
  · rw [hemb]
    nofun
  · rw [hst₂]
    nofun
  · rw [hnp, hone]

end Xv6.Procs
