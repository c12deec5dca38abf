import Xv6.Proc.Invariant

/-!
# Where RUNNABLE processes wait

Every operation but one queues a process on the ready list of its priority.
`killSearchAll` wakes the process at the head of the sleep list onto `ready[0]`
whatever its priority, and the next pass of the scheduler over that level panics
in `assertPrio`.  As long as every `kill` that wakes a process finds it at
priority 0, every RUNNABLE process is on the list of its priority and
`assertPrio` holds wherever it is called.
-/

namespace Xv6.Procs

open List

variable {a : Lists} {p : Slot} {f : Proc → Proc} {k : Kernel PTable}

/-- Every RUNNABLE process is on the ready list of its priority. -/
def PTable.Placed (s : PTable) : Prop :=
  ∀ p, (s.proc p).state = .runnable → p ∈ s.slots (.ready (s.proc p).priority)

namespace Lists

def Placed (a : Lists) : Prop :=
  ∀ i p, p ∈ a.list (.ready i) → (a.proc p).priority = i

theorem WF.not_ready (hw : a.WF) (hp : (a.proc p).state ≠ .runnable) (i : Nat) :
    p ∉ a.list (.ready i) :=
  fun hm => hp (hw.state _ p hm)

theorem WF.placed_iff (hw : a.WF) :
    a.Placed ↔ ∀ p, (a.proc p).state = .runnable → p ∈ a.list (.ready (a.proc p).priority) := by
  constructor
  · intro h p hp
    obtain ⟨id, hm⟩ := hw.total p
    have hst := hw.state id p hm
    rw [hp] at hst
    cases id with
    | ready i => rwa [h i p hm]
    | _ => cases hst
  · intro h i p hm
    have := hw.disjoint.unique _ _ p (h p (hw.state _ p hm)) hm
    simpa using this

/-- The levels from `n` on hold processes of their priority only. -/
def PlacedFrom (n : Nat) (a : Lists) : Prop :=
  ∀ i p, n ≤ i → p ∈ a.list (.ready i) → (a.proc p).priority = i

theorem placedFrom_zero : a.PlacedFrom 0 ↔ a.Placed :=
  ⟨fun h i p => h i p (Nat.zero_le i), fun h i p _ => h i p⟩

theorem PlacedFrom.pos_of_ne {n i : Nat} (h : a.PlacedFrom n) (hp : p ∈ a.list (.ready i))
    (hne : (a.proc p).priority ≠ i) : 0 < n := by
  by_contra h0
  exact hne (h i p (by omega) hp)

/-! ## What keeps it -/

variable {n : Nat}

theorem PlacedFrom.requeue (h : a.PlacedFrom n) (hw : a.WF) {src dst : ListId} (hp : p ∈ a.list src)
    (hd : ∀ i, n ≤ i → dst = .ready i → (f (a.proc p)).priority = i) :
    (a.requeue src dst p f).PlacedFrom n := by
  intro i q hi hq
  rw [requeue_proc]
  rcases (hw.disjoint.mem_requeue hp dst f _ q).1 hq with ⟨rfl, he⟩ | ⟨hne, hm⟩
  · rw [modify_proc_self]
    exact hd i hi he.symm
  · rw [modify_proc_of_ne _ _ hne]
    exact h i q hi hm

theorem PlacedFrom.mapSlots (h : a.PlacedFrom n) {l : List Slot}
    (hf : ∀ p ∈ l, ∀ i, p ∈ a.list (.ready i) → (f (a.proc p)).priority = (a.proc p).priority) :
    (a.mapSlots l f).PlacedFrom n := by
  intro i p hi hp
  have hpr := h i p hi hp
  show (if p ∈ l then f (a.proc p) else a.proc p).priority = i
  split
  · next hl => rw [hf p hl i hp, hpr]
  · exact hpr

theorem PlacedFrom.modify (h : a.PlacedFrom n)
    (hf : ∀ i, p ∈ a.list (.ready i) → (f (a.proc p)).priority = (a.proc p).priority) :
    (a.modify p f).PlacedFrom n := by
  rw [← mapSlots_singleton]
  refine h.mapSlots fun q hq => ?_
  rw [mem_singleton.1 hq]
  exact hf

theorem PlacedFrom.sched (h : a.PlacedFrom n) (p : Slot) : (a.sched p).PlacedFrom n :=
  h.modify fun _ _ => rfl

theorem charge_wf (hw : a.WF) (p : Slot) : (a.modify p (PTable.charge a.ticks)).WF :=
  hw.modify (charge_state _ _) (charge_prio _ _ (hw.prio p))

section
variable (h : a.PlacedFrom n)
include h

theorem PlacedFrom.yield (hw : a.WF) (hp : (a.proc p).state = .running) :
    (a.yield p).PlacedFrom n := by
  have hm : p ∈ a.list .running := (hw.mem_iff (by simp) p).2 hp
  have h₁ : (a.modify p (PTable.charge a.ticks)).PlacedFrom n :=
    h.modify fun i hi => absurd hi (hw.not_ready (by rw [hp]; simp) i)
  refine (h₁.requeue (charge_wf hw p) hm ?_).sched p
  rintro i - ⟨⟩
  rfl

theorem PlacedFrom.sleep (hw : a.WF) (hp : (a.proc p).state = .running)
    (chan : Chan) : (a.sleep p chan).PlacedFrom n := by
  have hm : p ∈ a.list .running := (hw.mem_iff (by simp) p).2 hp
  have hw₁ : (a.modify p fun q => { q with chan := chan }).WF := hw.modify rfl (hw.prio p)
  have h₁ : (a.modify p fun q => { q with chan := chan }).PlacedFrom n := h.modify fun _ _ => rfl
  have h₂ : ((a.modify p fun q => { q with chan := chan }).modify p
      (PTable.charge a.ticks)).PlacedFrom n :=
    h₁.modify fun i hi => absurd hi (hw.not_ready (by rw [hp]; simp) i)
  exact (h₂.requeue (charge_wf hw₁ p) hm (by simp)).sched p

theorem PlacedFrom.wakeup1 (hw : a.WF) (chan : Chan) : (a.wakeup1 chan).PlacedFrom n := by
  unfold Lists.wakeup1
  split
  · exact h
  · next p hp =>
    refine h.requeue hw (mem_of_find?_eq_some hp) ?_
    rintro i - ⟨⟩
    rfl

theorem PlacedFrom.exit (hw : a.WF) (hp : (a.proc p).state = .running) :
    (a.exit p).PlacedFrom n := by
  have hw₁ := wakeup1_wf hw (.ofProc (a.proc p).parent)
  have h₂ : ((a.wakeup1 (.ofProc (a.proc p).parent)).adopt p).PlacedFrom n :=
    (h.wakeup1 hw _).mapSlots fun _ _ _ _ => rfl
  have h₃ : (a.exitBefore p).PlacedFrom n := by
    unfold exitBefore
    rw [exitSearch_eq]
    split
    · exact h₂.wakeup1 (adopt_wf hw₁ p) _
    · exact h₂
  have hw₃ : (a.exitBefore p).WF := by
    unfold exitBefore
    rw [exitSearch_eq]
    split
    · exact wakeup1_wf (adopt_wf hw₁ p) _
    · exact adopt_wf hw₁ p
  have hm : p ∈ (a.exitBefore p).list .running := by
    unfold exitBefore
    rw [exitSearch_list _ _ (by simp) (by simp), wakeup1_list _ _ (by simp) (by simp)]
    exact (hw.mem_iff (by simp) p).2 hp
  rw [exit_eq]
  exact (h₃.requeue hw₃ hm (by simp)).sched p

theorem PlacedFrom.waitTurn (hw : a.WF) (hp : (a.proc p).state = .running)
    (back : Bool) : (a.waitTurn back p).2.PlacedFrom n := by
  obtain ⟨b, d, hb, hd, hr⟩ := a.waitTurn_cases p back
  have hz := fun c => zombie_of_turn (c := c) hw hp hb
  have hbp : b.PlacedFrom n ∧ b.WF ∧ (b.proc p).state = .running := by
    rcases hb with rfl | rfl
    · exact ⟨h, hw, hp⟩
    · exact ⟨h.modify fun _ _ => rfl, hw.modify rfl (hw.prio p), by rw [modify_proc_self, hp]⟩
  have hdp : d.PlacedFrom n ∧ d.WF ∧ (d.proc p).state = .running := by
    obtain ⟨hb, hw, hp⟩ := hbp
    rcases hd with rfl | ⟨c, hc, rfl⟩
    · exact ⟨hb, hw, hp⟩
    · have hw₁ : (b.requeue .zombie .free c fun q => { q with state := .unused }).WF :=
        hw.requeue hc rfl (hw.prio c) (by simp)
      refine ⟨(hb.requeue hw hc (by simp)).modify fun _ _ => rfl, hw₁.modify rfl (hw₁.prio c), ?_⟩
      rw [b.reap_proc_of_ne (hz c hc).2, hp]
  rcases hr with ⟨-, hr⟩ | ⟨-, hr⟩
  · rw [hr]
    exact hdp.1
  · rw [hr]
    exact hdp.1.sleep hdp.2.1 hdp.2.2 _

theorem PlacedFrom.sleepReturn (p : Slot) :
    (a.modify p fun q => { q with chan := .null }).PlacedFrom n :=
  h.modify fun _ _ => rfl

theorem PlacedFrom.trapKill (p : Slot) :
    (a.modify p fun q => { q with killed := true }).PlacedFrom n :=
  h.modify fun _ _ => rfl

theorem PlacedFrom.allocproc (hw : a.WF) : a.allocproc.2.PlacedFrom n := by
  rcases allocproc_cases a with ⟨-, he⟩ | ⟨np, hnp, he⟩
  · rw [he]
    exact h
  · have h₁ : (a.requeue .free .embryo np fun q => { q with state := .embryo }).PlacedFrom n :=
      h.requeue hw (mem_of_head? hnp) (by simp)
    have h₂ : ((a.requeue .free .embryo np fun q => { q with state := .embryo }).modify np
        fun q => { q with pid := a.nextpid }).PlacedFrom n := h₁.modify fun _ _ => rfl
    rw [he]
    exact h₂

theorem PlacedFrom.allocFail (hw : a.WF) {np : Slot} (hp : np ∈ a.list .embryo) :
    (a.allocFail np).PlacedFrom n :=
  h.requeue hw hp (by simp)

theorem PlacedFrom.allocInit (hw : a.WF) {np : Slot}
    (hp : (a.proc np).state = .embryo) : (a.allocInit np).PlacedFrom n :=
  h.modify fun i hi => absurd hi (hw.not_ready (by rw [hp]; simp) i)

theorem PlacedFrom.forkCopy (p np : Slot) : (a.forkCopy p np).PlacedFrom n :=
  h.modify fun _ _ => rfl

theorem PlacedFrom.forkReady (hw : a.WF) {np : Slot} (hp : np ∈ a.list .embryo)
    (hpr : (a.proc np).priority = 0) : (a.forkReady np).PlacedFrom n := by
  refine h.requeue hw hp ?_
  rintro i - ⟨⟩
  exact hpr

/-- A process on the wrong level makes `setpriority` panic. -/
theorem PlacedFrom.setpriority (hw : a.WF) (pID : BitVec 32) (prio : Nat) :
    Post (fun _ => 0 < n) (fun r => r.2.PlacedFrom n) (a.setpriority pID prio) := by
  refine setpriority_post hw pID prio (fun _ => h) (fun i p hp _ _ => ?_) (fun p hp _ _ => ?_)
  · refine requeueAt_post (fun _ => h.requeue hw hp ?_) fun hne => h.pos_of_ne hp hne
    rintro j - ⟨⟩
    rfl
  · refine h.modify fun i hi => absurd hi (hw.not_ready ?_ i)
    rcases hp with hp | hp <;> rw [hp] <;> simp

theorem PlacedFrom.promoteProcs (hn : n ≤ 1) (hw : a.WF) :
    Post (fun _ => False) (fun a' => a'.WF ∧ a'.PlacedFrom n) a.promoteProcs := by
  refine promoteProcs_post ?_ ?_ hw h
  · intro b p i hi _ hwb hb hp
    have hp := mem_of_head? hp
    refine requeueAt_post (fun he => hb.requeue hwb hp ?_) fun hne => hne (hb i p (by omega) hp)
    rintro j - ⟨⟩
    show (b.proc p).priority - 1 = i - 1
    rw [he]
  · intro b id hid hwb hb
    refine hb.mapSlots fun p hp i hi => ?_
    have := hwb.disjoint.unique _ _ p hp hi
    rcases hid with rfl | rfl <;> cases this

theorem PlacedFrom.scheduler (hn : n ≤ 1) (hw : a.WF) :
    Post (fun _ => 0 < n) (fun r => r.2.PlacedFrom n) a.scheduler := by
  refine scheduler_post hw h (fun b hwb hb => (hb.promoteProcs hn hwb).weaken nofun)
    (fun b t hb => hb) ?_ ?_ fun _ => id
  · intro b i p hwb hb hp
    have hm := mem_of_head? hp
    exact requeueAt_post (fun _ => hb.requeue hwb hm (by simp)) fun hne => hb.pos_of_ne hm hne
  · exact fun b p t hb => hb.modify fun _ _ => rfl

/-- `kill` wakes a process onto level 0. -/
theorem PlacedFrom.kill (hw : a.WF) {pid : BitVec 32}
    (hk : n = 0 → ∀ p, a.killTarget pid = some p → (a.list .sleep).head? = some p →
      (a.proc p).priority = 0) : (a.kill pid).2.PlacedFrom n := by
  unfold Lists.kill searchFirst
  dsimp only
  cases hz : (a.list .sleep).head? with
  | none =>
    dsimp only
    refine h.mapSlots fun p _ i _ => ?_
    split <;> rfl
  | some z =>
    dsimp only
    cases hf : a.search.find? fun p => decide ((a.proc p).pid = pid) with
    | none => exact h
    | some p =>
      have h₁ : (a.modify p fun q => { q with killed := true }).PlacedFrom n :=
        h.modify fun _ _ => rfl
      have hw₁ : (a.modify p fun q => { q with killed := true }).WF := hw.modify rfl (hw.prio p)
      dsimp only
      split
      next he =>
        subst he
        refine h₁.requeue hw₁ (mem_of_head? hz) ?_
        rintro i hi ⟨⟩
        rw [modify_proc_self]
        exact hk (Nat.le_zero.1 hi) p hf hz
      · exact h₁

end

theorem Placed.kill_iff (h : a.Placed) (hw : a.WF) (pid : BitVec 32) :
    (a.kill pid).2.Placed ↔ ∀ p, a.killTarget pid = some p → (a.list .sleep).head? = some p →
      (a.proc p).priority = 0 := by
  constructor
  · intro hp p hf hz
    have hm : p ∈ a.list .sleep := mem_of_head? hz
    have hw₁ : (a.modify p fun q => { q with killed := true }).WF := hw.modify rfl (hw.prio p)
    have hf' : (a.search.find? fun p => decide ((a.proc p).pid = pid)) = some p := hf
    have hkill : (a.kill pid).2 = (a.modify p fun q => { q with killed := true }).requeue .sleep
        (.ready 0) p fun q => { q with state := .runnable } := by
      simp [Lists.kill, searchFirst, hz, hf']
    rw [hkill] at hp
    have := hp 0 p ((hw₁.disjoint.mem_requeue hm _ _ _ p).2 (Or.inl ⟨rfl, rfl⟩))
    rwa [requeue_proc, modify_proc_self, modify_proc_self] at this
  · exact fun hk => (placedFrom_zero.2 h).kill hw (fun _ => hk) |> placedFrom_zero.1

end Lists

/-! ## Over runs -/

/-- A `kill` that wakes a process (its target heads the sleep list) finds it at priority 0. -/
def killOk (k : Kernel PTable) : Action → Prop
  | .kill _ pid => ∀ p, k.tab.lists.killTarget pid = some p → k.tab.head .sleep = some p →
    (k.tab.proc p).priority = 0
  | _ => True

instance (k : Kernel PTable) (act : Action) : Decidable (killOk k act) := by
  induction act using Action.casesOn <;> dsimp only [killOk] <;> infer_instance

instance (s : PTable) : Decidable s.Placed :=
  inferInstanceAs (Decidable (∀ p, (s.proc p).state = .runnable →
    p ∈ s.slots (.ready (s.proc p).priority)))

theorem placed_lists {s : PTable} (hw : s.lists.WF) : s.Placed ↔ s.lists.Placed :=
  hw.placed_iff.symm

theorem KRep.killOk_iff (h : KRep k k.lists) (p : Slot) (pid : BitVec 32) :
    killOk k (.kill p pid) ↔ ∀ q, k.lists.tab.killTarget pid = some q →
      (k.lists.tab.list .sleep).head? = some q → (k.lists.tab.proc q).priority = 0 := by
  unfold killOk
  dsimp only
  rw [h.rep.head_eq]
  rfl

/-- A level above 0 never holds a process of another priority, and level 0 does not as long as
the kills meet `killOk`. -/
theorem Kernel.placed_step {n : Nat} (hn : n ≤ 1) (hk : KRep k k.lists) (hf : k.lists.Forks)
    (h : k.lists.tab.PlacedFrom n) {act : Action} (hok : n = 0 → killOk k act)
    (hc : k.lists.canL act) {l : Kernel Lists} (he : k.lists.execL act = .ok l) :
    l.tab.PlacedFrom n := by
  have hw := hk.wf
  cases act with
  | tick => cases he; exact h
  | scheduler =>
    obtain ⟨r, hr, rfl⟩ := map_ok he
    exact (h.scheduler hn hw).of_ok hr
  | wakeup chan => cases he; exact h.wakeup1 hw _
  | yield p => cases he; exact h.yield hw hc.1
  | sleep p chan => cases he; exact h.sleep hw hc.1 _
  | sleepReturn p => cases he; exact h.sleepReturn p
  | trapKill p => cases he; exact h.trapKill p
  | forkAlloc p =>
    rw [Kernel.execL_forkAlloc he]
    exact h.allocproc hw
  | kallocFail p np | copyuvmFail p np => cases he; exact h.allocFail hw (hf.mem hk hc.2)
  | kallocOk p np => cases he; exact h.allocInit hw (hf.embryo p np _ hc.2)
  | copyuvmOk p np => cases he; exact h.forkCopy p np
  | forkReady p np =>
    cases he
    exact h.forkReady hw (hf.mem hk hc.2) (hf.prio p np _ hc.2 (by simp))
  | exit p =>
    obtain ⟨-, rfl⟩ := Kernel.execL_exit he
    exact h.exit hw hc.1
  | wait p => cases he; exact h.waitTurn hw hc.1 _
  | kill p pid =>
    cases he
    exact h.kill hw fun h0 => (hk.killOk_iff p pid).1 (hok h0)
  | setpriority p pID prio =>
    obtain ⟨r, hr, rfl⟩ := map_ok he
    exact (h.setpriority hw pID prio).of_ok hr

theorem Kernel.placed_error {l : Kernel Lists} (hw : l.tab.WF) (h : l.tab.Placed) {act : Action} :
    l.execL act ≠ .error .assertPrio := by
  intro he
  have h := Lists.placedFrom_zero.2 h
  cases act with
  | scheduler => exact absurd ((h.scheduler (by omega) hw).of_error (map_error he)) (by omega)
  | setpriority p pID prio =>
    exact absurd ((h.setpriority hw pID prio).of_error (map_error he)) (by omega)
  | exit p =>
    unfold Kernel.execL at he
    dsimp only at he
    split at he <;> cases he
  | forkAlloc p =>
    unfold Kernel.execL at he
    dsimp only at he
    split at he <;> cases he
  | _ => cases he

theorem init_placed (ticks : BitVec 32) : (Lists.userinit ticks).Placed := by
  intro i p hp
  have hnil : ∀ (b : Lists), b.list (.ready i) = [] → ∀ q, q ∈ (b.requeue .embryo (.ready 0) 0
      fun q => { q with state := .runnable }).list (.ready i) → q = 0 ∧ i = 0 := by
    intro b hb q hq
    by_cases hi : i = 0
    · subst hi
      simp only [Lists.requeue, Lists.add, Function.update_self, Lists.modify_list,
        remove_list_of_ne _ _ (show ListId.ready 0 ≠ .embryo by simp), hb, nil_append,
        mem_singleton] at hq
      exact ⟨hq, rfl⟩
    · rw [requeue_list_of_ne _ _ _ (by simp) (by simpa using hi), hb] at hq
      exact absurd hq not_mem_nil
  obtain ⟨rfl, rfl⟩ := hnil _ rfl p hp
  rfl

theorem reach_placed (hk : (kernel.restrict killOk).Reach k) :
    KRep k k.lists ∧ k.lists.Forks ∧ k.lists.tab.Placed := by
  refine kernel_invariant killOk (P := fun l => l.tab.Placed) init_placed ?_ hk
  intro k act l' hk hf hp hok hc he _
  exact Lists.placedFrom_zero.1
    (Kernel.placed_step (Nat.zero_le 1) hk hf (Lists.placedFrom_zero.2 hp) (fun _ => hok) hc he)

/-- The levels above 0 are right in every run. -/
theorem reach_placedFrom_one (hk : kernel.Reach k) : k.lists.tab.PlacedFrom 1 := by
  refine (kernel_invariant (fun _ _ => True) (P := fun l => l.tab.PlacedFrom 1)
    (fun ticks i p _ => init_placed ticks i p) ?_ (hk.restrict fun _ _ => trivial)).2.2
  intro k act l' hk hf hp _ hc he _
  exact Kernel.placed_step (Nat.le_refl 1) hk hf hp nofun hc he

/-- In every run whose kills meet `killOk` the RUNNABLE processes are on the lists of their
priorities and no action panics in `assertPrio`; and a kill that does not meet it takes such a
state to one where a process is on the wrong list. -/
theorem placed_of_killOk (k : Kernel PTable) :
    ((kernel.restrict killOk).Reach k →
      k.tab.Placed ∧ ∀ act, k.can act → k.exec act ≠ .error .assertPrio) ∧
    (kernel.Reach k → k.tab.Placed → ∀ p pid k', kernel.step k (.kill p pid) k' →
      (k'.tab.Placed ↔ killOk k (.kill p pid))) := by
  constructor
  · intro hk
    obtain ⟨hr, hf, hp⟩ := reach_placed hk
    refine ⟨(placed_lists hr.wf).2 hp, fun act hc he => ?_⟩
    have hs := exec_sim hr hf hc
    cases hl : k.lists.execL act with
    | error e =>
      rw [hl, he] at hs
      cases hs
      exact Kernel.placed_error hr.wf hp hl
    | ok l =>
      rw [hl, he] at hs
      obtain ⟨k', hk', -⟩ := hs
      cases hk'
  · intro hk hp p pid k' hstep
    obtain ⟨hr, hf⟩ := reach_krep hk
    obtain ⟨hc, he, hr'⟩ := step_krep hr hf hstep
    have hkill : k'.lists.tab = (k.lists.tab.kill pid).2 := by
      unfold Kernel.execL at he
      rw [← Except.ok.inj he]
    have hw' : k'.tab.lists.WF := hr'.wf
    have hp' : k.lists.tab.Placed := (placed_lists hr.wf).1 hp
    rw [placed_lists hw', show k'.tab.lists = _ from hkill, hp'.kill_iff hr.wf, hr.killOk_iff]

/-- Init, waiting at priority 0, is killed by its child. -/
theorem placed_of_killOk_prio_zero : ∃ k, (kernel.restrict killOk).Reach k ∧
    (k.tab.proc 0).state = .runnable ∧ (k.tab.proc 0).killed = true ∧ k.tab.Placed := by
  obtain ⟨k, hk, hP⟩ := Kernel.exists_reach_restrict killOk
    [.scheduler, .forkAlloc 0, .kallocOk 0 1, .copyuvmOk 0 1, .forkReady 0 1, .wait 0,
      .scheduler, .kill 1 1]
    (P := fun k => decide ((k.tab.proc 0).state = .runnable ∧ (k.tab.proc 0).killed = true))
    (by decide +kernel)
  have hP := of_decide_eq_true hP
  exact ⟨k, hk, hP.1, hP.2, ((placed_of_killOk k).1 hk).1⟩

/-- Init sets its priority to 3 and waits; its child kills it and yields.  Init is then at the
head of `ready[0]` with priority 3, and the next pass of the scheduler panics. -/
theorem killed_sleeper_misplaced : ∃ k, kernel.Reach k ∧ ¬ k.tab.Placed ∧
    k.tab.head (.ready 0) = some 0 ∧ (k.tab.proc 0).priority = 3 ∧
    k.can .scheduler ∧ k.exec .scheduler = .error .assertPrio := by
  obtain ⟨k, hk, hP⟩ := Kernel.exists_reach
    [.scheduler, .forkAlloc 0, .kallocOk 0 1, .copyuvmOk 0 1, .forkReady 0 1,
      .setpriority 0 1 3, .wait 0, .scheduler, .kill 1 1, .yield 1]
    (P := fun k => decide (¬ k.tab.Placed ∧ k.tab.head (.ready 0) = some 0 ∧
      (k.tab.proc 0).priority = 3 ∧ k.panics .scheduler .assertPrio = true)) (by decide +kernel)
  obtain ⟨hpl, hh, hpr, hpan⟩ := of_decide_eq_true hP
  exact ⟨k, hk, hpl, hh, hpr, trivial, (k.panics_iff _ _).1 hpan⟩

end Xv6.Procs
