import Xv6.Proc.Fields

/-!
# A stale `killed`

`wait` clears `killed` when it frees a slot, and nothing else does.  A slot that `fork` has taken
can be killed by its pid while `fork` works on it; when `fork` then fails, the slot goes back to the
free list with `killed` set, and the child of a later `fork` starts with it.
-/

namespace Xv6.Procs

/-- A `fork` gives its slot back only when nobody has killed it meanwhile. -/
def forkOk (k : Kernel PTable) : Action → Prop
  | .kallocFail _ np | .copyuvmFail _ np => (k.tab.proc np).killed = false
  | _ => True

instance (k : Kernel PTable) (act : Action) : Decidable (forkOk k act) := by
  induction act using Action.casesOn <;> dsimp only [forkOk] <;> infer_instance

/-- No slot of the free list is killed. -/
def PTable.FreeClean (s : PTable) : Prop := ∀ p ∈ s.slots .free, (s.proc p).killed = false

/-! ## Who sets `killed` -/

theorem killed_unscheduled : Unscheduled fun q q' => q'.killed = true → q.killed = true :=
  ⟨⟨fun _ => id, fun _ _ _ h h' => h ∘ h', fun _ _ => id, fun _ _ => id, fun _ _ => id,
    fun _ _ _ _ _ => id⟩, fun _ _ _ => id, fun _ _ => id, fun _ _ _ _ _ _ => id⟩

variable {q : Slot}

namespace Lists

theorem kill_killed {a : Lists} {pid : BitVec 32} (h : ((a.kill pid).2.proc q).killed = true) :
    (a.proc q).killed = true ∨ (a.proc q).pid = pid ∧ q ∈ a.search := by
  unfold kill searchFirst at h
  dsimp only at h
  split at h
  · dsimp only [mapSlots] at h
    split at h
    · next hm =>
      split at h
      · next he => exact .inr ⟨by simpa using he, hm⟩
      · exact .inl h
    · exact .inl h
  · split at h
    · exact .inl h
    · next p hp =>
      have hm := List.mem_of_find?_eq_some hp
      have hpid : (a.proc p).pid = pid := by simpa using List.find?_some hp
      by_cases he : q = p
      · subst he
        exact .inr ⟨hpid, hm⟩
      · dsimp only at h
        split at h
        · rw [requeue_proc, modify_proc_of_ne _ _ he, modify_proc_of_ne _ _ he] at h
          exact .inl h
        · rw [modify_proc_of_ne _ _ he] at h
          exact .inl h

/-- `wait` clears `killed` of the child it frees. -/
theorem waitTurn_clean {a : Lists} (hw : a.WF) {p : Slot} (hp : (a.proc p).state = .running)
    (back : Bool) (hz : (a.proc q).state = .zombie)
    (hq : ((a.waitTurn back p).2.proc q).state = .unused) :
    ((a.waitTurn back p).2.proc q).killed = false := by
  obtain ⟨b, d, hb, hd, hr⟩ := a.waitTurn_cases p back
  have hqp : q ≠ p := by
    rintro rfl
    rw [hp] at hz
    cases hz
  have hbq : b.proc q = a.proc q := by
    rcases hb with rfl | rfl
    · rfl
    · exact modify_proc_of_ne _ _ hqp
  have hres : (a.waitTurn back p).2.proc q = d.proc q := by
    rcases hr with ⟨-, hr⟩ | ⟨-, hr⟩
    · rw [hr]
    · rw [hr, d.sleep_proc_of_ne p _ hqp]
  rw [hres] at hq ⊢
  rcases hd with rfl | ⟨c, hc, rfl⟩
  · rw [hbq, hz] at hq
    cases hq
  · by_cases he : q = c
    · rw [he, b.reap_proc_self]
    · rw [b.reap_proc_of_ne he, hbq, hz] at hq
      cases hq

end Lists

/-- `killed` is set by `kill`, of a process that is not free and has the pid, and by a trap of the
process itself. -/
theorem killed_step {l l' : Kernel Lists} (hw : l.tab.WF) {act : Action} (hc : l.canL act)
    (h : l.execL act = .ok l') (hq : (l'.tab.proc q).killed = true) :
    (l.tab.proc q).killed = true ∨
    (∃ p, act = .kill p (l.tab.proc q).pid ∧ (l.tab.proc q).state ≠ .unused) ∨
    act = .trapKill q := by
  have hR := killed_unscheduled
  cases act with
  | trapKill p =>
    cases h
    by_cases he : q = p
    · exact .inr (.inr (by rw [he]))
    · left
      have hq : ((l.tab.modify p fun x => { x with killed := true }).proc q).killed = true := hq
      rwa [Lists.modify_proc_of_ne _ _ he] at hq
  | forkAlloc p =>
    have hkeep := (Lists.allocproc_keeps hR.toMinor (fun _ _ => id) l.tab).proc q
    rw [← Kernel.execL_forkAlloc h] at hkeep
    exact .inl (hkeep hq)
  | wait p => cases h; exact .inl ((Lists.waitTurn_keeps hR _ p _ fun _ => nofun).proc q hq)
  | kill p pid =>
    cases h
    rcases Lists.kill_killed hq with hk | ⟨rfl, hm⟩
    · exact .inl hk
    · exact .inr (.inl ⟨p, rfl, (hw.mem_search q).1 hm⟩)
  | _ => exact .inl (keeps_step hR hw h trivial q hq)

/-! ## Runs -/

/-- The slots that `kill` was called for, by their pid, since `fork` last took them. -/
def hits (k : Kernel PTable) (act : Action) (k' : Kernel PTable) (g : Slot → Prop) (q : Slot) :
    Prop :=
  g q ∧ ¬ ((k.tab.proc q).state = .unused ∧ (k'.tab.proc q).state = .embryo) ∨
    ∃ p, act = .kill p (k.tab.proc q).pid

/-- The runs whose forks meet `forkOk`, with the slots that were hit. -/
def kills : System (Kernel PTable × (Slot → Prop)) Action :=
  (kernel.restrict forkOk).withGhost (fun _ => False) hits

/-- Free slots are clean, and an embryo that is killed was hit. -/
structure Clean (k : Kernel PTable) (g : Slot → Prop) : Prop where
  free : ∀ q, (k.tab.proc q).state = .unused → (k.tab.proc q).killed = false
  embryo : ∀ q, (k.tab.proc q).state = .embryo → (k.tab.proc q).killed = true → g q

section
variable {k k' : Kernel PTable} {g : Slot → Prop} {act : Action}

theorem freeClean_iff (h : k.tab.ListInv) : k.tab.FreeClean ↔
    ∀ q, (k.tab.proc q).state = .unused → (k.tab.proc q).killed = false := by
  obtain ⟨-, hw⟩ := (listInv_iff _).1 h
  refine forall_congr' fun q => imp_congr_left ?_
  show q ∈ k.tab.lists.list .free ↔ _
  exact hw.mem_iff (by simp) q

/-- A slot becomes free by `wait`, which clears `killed`, or by a `fork` that fails. -/
theorem freeClean_step (hk : KRep k k.lists) (hf : k.lists.Forks)
    (hfree : ∀ q, (k.tab.proc q).state = .unused → (k.tab.proc q).killed = false)
    (hok : forkOk k act) (h : kernel.step k act k')
    (hq : (k'.tab.proc q).state = .unused) : (k'.tab.proc q).killed = false := by
  obtain ⟨hc, he, -⟩ := step_krep hk hf h
  have hturn : Turn act q (k.tab.proc q).state (k'.tab.proc q).state := turn_step hk.wf hf hc he q
  have hcause : (k'.tab.proc q).killed = true → _ := killed_step hk.wf hc he
  rw [hq] at hturn
  generalize hst : (k.tab.proc q).state = st at hturn
  cases hturn with
  | same =>
    by_contra hkilled
    rcases hcause (by simpa using hkilled) with h0 | ⟨p, -, hne⟩ | rfl
    · exact absurd ((hfree q hst).symm.trans h0) nofun
    · exact hne hst
    · have hrun : (k.tab.proc q).state = .running := hc.1
      rw [hst] at hrun
      cases hrun
  | resched _ ha => exact ha.elim
  | fail hact =>
    have hok : (k.tab.proc q).killed = false := by
      rcases hact with rfl | rfl
      · exact hok
      · exact hok
    by_contra hkilled
    rcases hcause (by simpa using hkilled) with h0 | ⟨p, rfl, -⟩ | rfl
    · exact absurd (hok.symm.trans h0) nofun
    · rcases hact with hact | hact <;> cases hact
    · rcases hact with hact | hact <;> cases hact
  | @reap p hact =>
    subst hact
    have htab : k'.tab.lists = (k.tab.lists.waitTurn (k.ctl p = .waiting) p).2 :=
      (congrArg Kernel.tab (Except.ok.inj he)).symm
    have hclean := Lists.waitTurn_clean (q := q) hk.wf hc.1 (decide (k.ctl p = .waiting)) hst
    rw [show k.lists.tab.waitTurn (k.ctl p = .waiting) p = k.tab.lists.waitTurn _ p from rfl,
      ← htab] at hclean
    exact hclean hq

theorem clean_step (hk : KRep k k.lists) (hf : k.lists.Forks) (hcl : Clean k g)
    (hok : forkOk k act) (h : kernel.step k act k') : Clean k' (hits k act k' g) := by
  obtain ⟨hc, he, -⟩ := step_krep hk hf h
  refine ⟨fun q hq => freeClean_step hk hf hcl.free hok h hq, fun q hq hkilled => ?_⟩
  have hturn : Turn act q (k.tab.proc q).state (k'.tab.proc q).state := turn_step hk.wf hf hc he q
  have hcause : (k.tab.proc q).killed = true ∨ _ := killed_step hk.wf hc he hkilled
  rw [hq] at hturn
  generalize hst : (k.tab.proc q).state = st at hturn
  rcases hcause with h0 | ⟨p, hact, -⟩ | rfl
  · left
    cases hturn with
    | same => exact ⟨hcl.embryo q hst h0, fun hb => by rw [hst] at hb; cases hb.1⟩
    | resched _ ha => exact ha.elim
    | alloc => exact absurd ((hcl.free q hst).symm.trans h0) nofun
  · exact .inr ⟨p, hact⟩
  · have hrun : (k.tab.proc q).state = .running := hc.1
    rw [hst] at hrun
    cases hturn with
    | same => cases hrun
    | resched _ ha => exact ha.elim
    | alloc hact => cases hact

theorem init_clean (h : kernel.init k) : Clean k fun _ => False := by
  obtain ⟨ticks, hk⟩ := init_krep h
  have hproc : k.tab.proc = (Lists.userinit ticks).proc := hk.rep.proc
  have hkilled : ∀ q, (k.tab.proc q).killed = false := by
    intro q
    rw [hproc]
    by_cases hq : q = 0
    · subst hq
      rfl
    · rw [userinit_proc_of_ne ticks hq]
  exact ⟨fun q _ => hkilled q, fun q _ hq => absurd ((hkilled q).symm.trans hq) nofun⟩

theorem kills_reach (h : kills.Reach (k, g)) : kernel.Reach k := h.of_ghost.of_restrict

theorem clean_of_reach (h : kills.Reach (k, g)) : Clean k g := by
  have key : ∀ x : Kernel PTable × (Slot → Prop), kills.Reach x → Clean x.1 x.2 := by
    intro x hx
    induction hx with
    | init h =>
      obtain ⟨hi, hg⟩ := h
      rw [hg]
      exact init_clean hi
    | step hr h ih =>
      obtain ⟨⟨hok, hstep⟩, hg⟩ := h
      obtain ⟨hk, hf⟩ := reach_krep (kills_reach hr)
      rw [hg]
      exact clean_step hk hf ih hok hstep
  exact key _ h

/-- In every run whose failing forks find their slot not killed, no free slot is killed, and the
child that `fork` makes RUNNABLE is killed only if `kill` was called with its pid; and a fork that
fails leaves the free list clean exactly when its slot is not killed. -/
theorem fork_starts_clean (k : Kernel PTable) :
    (∀ g, kills.Reach (k, g) → k.tab.FreeClean ∧ ∀ p np k', kernel.step k (.forkReady p np) k' →
      (k'.tab.proc np).killed = true → g np) ∧
    (kernel.Reach k → k.tab.FreeClean → ∀ act k', kernel.step k act k' →
      (k'.tab.FreeClean ↔ forkOk k act)) := by
  constructor
  · intro g h
    have hr := kills_reach h
    have hcl := clean_of_reach h
    refine ⟨(freeClean_iff (listInv_of_reach hr)).2 hcl.free, fun p np k' hstep hkilled => ?_⟩
    obtain ⟨hk, hf⟩ := reach_krep hr
    obtain ⟨hc, he, -⟩ := step_krep hk hf hstep
    refine hcl.embryo np (hf.embryo p np _ hc.2) ?_
    rcases killed_step hk.wf hc he hkilled with h0 | ⟨q, hact, -⟩ | hact
    · exact h0
    · cases hact
    · cases hact
  · intro hr hfree act k' hstep
    obtain ⟨hk, hf⟩ := reach_krep hr
    obtain ⟨hc, he, hk'⟩ := step_krep hk hf hstep
    rw [freeClean_iff (listInv_of_reach hr)] at hfree
    rw [freeClean_iff ((listInv_iff _).2 ⟨hk'.rep, hk'.wf⟩)]
    refine ⟨fun hclean => ?_, fun hok q hq => freeClean_step hk hf hfree hok hstep hq⟩
    -- the slot that the fork gives back is free now, as it was
    have hback : ∀ p np, k'.lists = k.lists.set p .idle (k.lists.tab.allocFail np) →
        (k.tab.proc np).killed = false := by
      intro p np heq
      have hnp : k'.tab.proc np = { k.tab.proc np with state := .unused } := by
        have : k'.lists.tab.proc np = (k.lists.tab.allocFail np).proc np := by rw [heq]; rfl
        unfold Lists.allocFail at this
        rwa [Lists.requeue_proc, Lists.modify_proc_self] at this
      have := hclean np (by rw [hnp])
      rwa [hnp] at this
    cases act with
    | kallocFail p np => exact hback p np (Except.ok.inj he).symm
    | copyuvmFail p np => exact hback p np (Except.ok.inj he).symm
    | _ => trivial

/-- Init forks; the fork goes well and its child is not killed. -/
theorem fork_starts_clean_child : ∃ k g, kills.Reach (k, g) ∧
    (k.tab.proc 1).state = .runnable ∧ k.tab.FreeClean := by
  obtain ⟨k, hk, hP⟩ := Kernel.exists_reach_restrict forkOk
    [.scheduler, .forkAlloc 0, .kallocOk 0 1, .copyuvmOk 0 1, .forkReady 0 1]
    (P := fun k => decide ((k.tab.proc 1).state = .runnable)) (by decide +kernel)
  obtain ⟨g, hg⟩ := hk.to_ghost (fun _ => False) hits
  exact ⟨k, g, hg, of_decide_eq_true hP, ((fork_starts_clean k).1 g hg).1⟩

/-- Init forks a child; the child forks, init kills the new slot by its pid, and the fork of the
child fails in `copyuvm`. -/
theorem killed_embryo_freed : ∃ k, kernel.Reach k ∧ (2 : Slot) ∈ k.tab.slots .free ∧
    (k.tab.proc 2).killed = true := by
  obtain ⟨k, hk, hP⟩ := Kernel.exists_reach
    [.scheduler, .forkAlloc 0, .kallocOk 0 1, .copyuvmOk 0 1, .forkReady 0 1, .scheduler,
      .forkAlloc 1, .kallocOk 1 2, .kill 0 3, .copyuvmFail 1 2]
    (P := fun k => decide ((2 : Slot) ∈ k.tab.slots .free ∧ (k.tab.proc 2).killed = true))
    (by decide +kernel)
  exact ⟨k, hk, of_decide_eq_true hP⟩

end

end Xv6.Procs
