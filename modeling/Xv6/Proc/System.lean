import Xv6.Lib.System
import Xv6.Proc.RefineSched

/-!
# The process system

The kernel as a transition system: one action per critical section of
`ptable.lock`, plus the stretches of `fork` between two of them.  `ctl p` is
where process `p` stands when it is not free to begin something new: in the
middle of a `fork`, or back from `sched` inside `sleep` or `wait`.

The number of processors is not bounded: any process on the running list may
take the next step, and a scheduler pass may come at any time.  `Kernel τ` is
over the table (`PTable`) or over its lists (`Lists`); `kernel_refines` says
that every run over the table is a run over the lists.
-/

namespace Xv6.Procs

/-- How far a `fork` has come: after `allocproc`'s first section, after `kalloc`, after
`copyuvm` and the copying of the fields. -/
inductive Stage
  | alloc | init | copied
deriving DecidableEq, Repr

inductive Ctl
  | idle
  | fork (np : Slot) (stage : Stage)
  | slept
  | waiting
deriving DecidableEq, Repr

structure Kernel (τ : Type) where
  tab : τ
  ctl : Slot → Ctl

/-- The first argument is the process that takes the step. -/
inductive Action
  | tick
  | scheduler
  | wakeup (chan : Nat)
  | yield (p : Slot)
  | sleep (p : Slot) (chan : Nat)
  | sleepReturn (p : Slot)
  | trapKill (p : Slot)
  | forkAlloc (p : Slot)
  | kallocFail (p np : Slot)
  | kallocOk (p np : Slot)
  | copyuvmFail (p np : Slot)
  | copyuvmOk (p np : Slot)
  | forkReady (p np : Slot)
  | exit (p : Slot)
  | wait (p : Slot)
  | kill (p : Slot) (pid : BitVec 32)
  | setpriority (p : Slot) (pID : BitVec 32) (prio : Nat)
deriving DecidableEq, Repr

namespace Kernel

variable {τ : Type}

/-- The new table, with the process `p` at `c`. -/
def set (k : Kernel τ) (p : Slot) (c : Ctl) (t : τ) : Kernel τ :=
  ⟨t, Function.update k.ctl p c⟩

/-- What each action asks of the process that takes it: `st` is its state. `sys_setpriority`
checks its arguments as signed integers. -/
def enabled (st : Slot → ProcState) (ctl : Slot → Ctl) : Action → Prop
  | .tick | .scheduler | .wakeup _ => True
  | .yield p => st p = .running ∧ ctl p ≠ .slept ∧ ctl p ≠ .waiting
  | .sleep p _ | .forkAlloc p | .exit p | .kill p _ | .trapKill p =>
    st p = .running ∧ ctl p = .idle
  | .sleepReturn p => st p = .running ∧ ctl p = .slept
  | .kallocFail p np | .kallocOk p np => st p = .running ∧ ctl p = .fork np .alloc
  | .copyuvmFail p np | .copyuvmOk p np => st p = .running ∧ ctl p = .fork np .init
  | .forkReady p np => st p = .running ∧ ctl p = .fork np .copied
  | .wait p => st p = .running ∧ (ctl p = .idle ∨ ctl p = .waiting)
  | .setpriority p pID prio =>
    st p = .running ∧ ctl p = .idle ∧ 1 ≤ pID.toInt ∧ prio ≤ maxPrio

instance (st : Slot → ProcState) (ctl : Slot → Ctl) (act : Action) :
    Decidable (enabled st ctl act) := by
  cases act <;> dsimp only [enabled] <;> infer_instance

end Kernel

/-! ## Over the table -/

/-- A turn of `wait`, first tidying up when it comes back from its own `sleep`. -/
def PTable.waitTurn (back : Bool) (proc : Slot) (s : PTable) :
    Except Panic (Option (BitVec 32) × PTable) :=
  wait proc (if back then sleepReturn proc s else s)

/-- A process that took a hardware fault in user space. -/
def PTable.trapKill (proc : Slot) (s : PTable) : PTable :=
  s.modify proc fun q => { q with killed := true }

namespace Kernel

def exec (k : Kernel PTable) : Action → Except Panic (Kernel PTable)
  | .tick => .ok { k with tab := { k.tab with ticks := k.tab.ticks + 1 } }
  | .scheduler => k.tab.scheduler.map fun r => { k with tab := r.2 }
  | .wakeup chan => (k.tab.wakeup (.addr chan)).map fun s => { k with tab := s }
  | .yield p => (k.tab.yield p).map fun s => { k with tab := s }
  | .sleep p chan => (k.tab.sleep p (.addr chan)).map (k.set p .slept)
  | .sleepReturn p => .ok (k.set p .idle (k.tab.sleepReturn p))
  | .trapKill p => .ok { k with tab := k.tab.trapKill p }
  | .forkAlloc p => k.tab.allocproc.map fun r =>
    match r.1 with
    | none => { k with tab := r.2 }
    | some np => k.set p (.fork np .alloc) r.2
  | .kallocFail p np => (k.tab.allocprocFail np).map (k.set p .idle)
  | .kallocOk p np => .ok (k.set p (.fork np .init) (k.tab.allocprocInit np))
  | .copyuvmFail p np => (k.tab.forkFail np).map (k.set p .idle)
  | .copyuvmOk p np => .ok (k.set p (.fork np .copied) (k.tab.forkCopy p np))
  | .forkReady p np => (k.tab.forkReady np).map (k.set p .idle)
  | .exit p => (k.tab.exit p).map fun s => { k with tab := s }
  | .wait p => (k.tab.waitTurn (k.ctl p = .waiting) p).map fun r =>
    k.set p (if r.1 = none then .waiting else .idle) r.2
  | .kill _ pid => (k.tab.kill pid).map fun r => { k with tab := r.2 }
  | .setpriority _ pID prio => (k.tab.setpriority pID prio).map fun r => { k with tab := r.2 }

/-- The actions that the processes can take. -/
def can (k : Kernel PTable) (act : Action) : Prop :=
  enabled (fun p => (k.tab.proc p).state) k.ctl act

instance (k : Kernel PTable) (act : Action) : Decidable (k.can act) :=
  inferInstanceAs (Decidable (enabled _ _ act))

end Kernel

/-- The process system from `userinit` on. -/
def kernel : System (Kernel PTable) Action where
  init k := ∃ ticks, (PTable.boot ticks).userinit = .ok k.tab ∧ k.ctl = fun _ => .idle
  step k act k' := k.can act ∧ k.exec act = .ok k'

/-! ## Concrete runs -/

namespace Kernel

/-- The state after `userinit`, booted at tick 0. -/
def start : Option (Kernel PTable) :=
  match (PTable.boot 0).userinit with
  | .ok s => some ⟨s, fun _ => .idle⟩
  | .error _ => none

/-- Take the actions one after the other, as long as the system can and `ok` allows. -/
def run (ok : Kernel PTable → Action → Prop) [∀ k act, Decidable (ok k act)] :
    List Action → Kernel PTable → Option (Kernel PTable)
  | [], k => some k
  | act :: acts, k =>
    if ok k act ∧ k.can act then
      match k.exec act with
      | .ok k' => run ok acts k'
      | .error _ => none
    else none

variable {P : Kernel PTable → Bool}

section
variable {ok : Kernel PTable → Action → Prop} [∀ k act, Decidable (ok k act)]

theorem run_reach {acts : List Action} {k k' : Kernel PTable} (hk : (kernel.restrict ok).Reach k)
    (h : run ok acts k = some k') : (kernel.restrict ok).Reach k' := by
  induction acts generalizing k with
  | nil =>
    cases h
    exact hk
  | cons act acts ih =>
    unfold run at h
    split at h
    · next hc =>
      split at h
      · next k₁ hk₁ => exact ih (.step hk ⟨hc.1, hc.2, hk₁⟩) h
      · cases h
    · cases h

/-- A run that ends in a state with `P` shows that one is reachable. -/
theorem exists_reach_restrict (ok : Kernel PTable → Action → Prop) [∀ k act, Decidable (ok k act)]
    (acts : List Action)
    (h : (start.bind (run ok acts)).any P = true) :
    ∃ k, (kernel.restrict ok).Reach k ∧ P k = true := by
  obtain ⟨k, hk, hP⟩ := (Option.any_eq_true _ _).1 h
  obtain ⟨k₀, hk₀, hrun⟩ := Option.bind_eq_some_iff.1 hk
  refine ⟨k, run_reach (.init ⟨0, ?_⟩) hrun, hP⟩
  unfold start at hk₀
  split at hk₀
  · next s hs =>
    cases hk₀
    exact ⟨hs, rfl⟩
  · cases hk₀

end

theorem exists_reach (acts : List Action)
    (h : (start.bind (run (fun _ _ => True) acts)).any P = true) :
    ∃ k, kernel.Reach k ∧ P k = true := by
  obtain ⟨k, hk, hP⟩ := exists_reach_restrict _ acts h
  exact ⟨k, hk.of_restrict, hP⟩

/-- The action ends in the panic `e`. -/
def panics (k : Kernel PTable) (act : Action) (e : Panic) : Bool :=
  match k.exec act with
  | .error e' => decide (e' = e)
  | .ok _ => false

theorem panics_iff (k : Kernel PTable) (act : Action) (e : Panic) :
    k.panics act e = true ↔ k.exec act = .error e := by
  unfold panics
  cases k.exec act <;> simp

end Kernel

/-! ## Over the lists -/

def Lists.waitTurn (back : Bool) (proc : Slot) (a : Lists) : Option (BitVec 32) × Lists :=
  (if back then a.modify proc fun q => { q with chan := .null } else a).wait proc

variable {p : Slot}

namespace Kernel

def execL (k : Kernel Lists) : Action → Except Panic (Kernel Lists)
  | .tick => .ok { k with tab := { k.tab with ticks := k.tab.ticks + 1 } }
  | .scheduler => k.tab.scheduler.map fun r => { k with tab := r.2 }
  | .wakeup chan => .ok { k with tab := k.tab.wakeup1 (.addr chan) }
  | .yield p => .ok { k with tab := k.tab.yield p }
  | .sleep p chan => .ok (k.set p .slept (k.tab.sleep p (.addr chan)))
  | .sleepReturn p => .ok (k.set p .idle (k.tab.modify p fun q => { q with chan := .null }))
  | .trapKill p => .ok { k with tab := k.tab.modify p fun q => { q with killed := true } }
  | .forkAlloc p =>
    match k.tab.allocproc.1 with
    | none => .ok { k with tab := k.tab.allocproc.2 }
    | some np => .ok (k.set p (.fork np .alloc) k.tab.allocproc.2)
  | .kallocFail p np | .copyuvmFail p np => .ok (k.set p .idle (k.tab.allocFail np))
  | .kallocOk p np => .ok (k.set p (.fork np .init) (k.tab.allocInit np))
  | .copyuvmOk p np => .ok (k.set p (.fork np .copied) (k.tab.forkCopy p np))
  | .forkReady p np => .ok (k.set p .idle (k.tab.forkReady np))
  | .exit p =>
    if k.tab.initproc = some p then .error .initExiting else .ok { k with tab := k.tab.exit p }
  | .wait p =>
    let r := k.tab.waitTurn (k.ctl p = .waiting) p
    .ok (k.set p (if r.1 = none then .waiting else .idle) r.2)
  | .kill _ pid => .ok { k with tab := (k.tab.kill pid).2 }
  | .setpriority _ pID prio => (k.tab.setpriority pID prio).map fun r => { k with tab := r.2 }

theorem execL_exit {k k' : Kernel Lists} (h : k.execL (.exit p) = .ok k') :
    k.tab.initproc ≠ some p ∧ k' = { k with tab := k.tab.exit p } := by
  unfold execL at h
  dsimp only at h
  split at h
  · cases h
  · next hi => exact ⟨hi, (Except.ok.inj h).symm⟩

theorem execL_forkAlloc {k k' : Kernel Lists} (h : k.execL (.forkAlloc p) = .ok k') :
    k'.tab = k.tab.allocproc.2 := by
  unfold execL at h
  dsimp only at h
  split at h <;> (cases h; rfl)

def canL (k : Kernel Lists) (act : Action) : Prop :=
  enabled (fun p => (k.tab.proc p).state) k.ctl act

end Kernel

def kernelLists : System (Kernel Lists) Action where
  init k := ∃ ticks, k.tab = Lists.userinit ticks ∧ k.ctl = fun _ => .idle
  step k act k' := k.canL act ∧ k.execL act = .ok k'

/-! ## The table refines the lists -/

/-- The table spells out the lists, which are well formed. -/
structure KRep (k : Kernel PTable) (l : Kernel Lists) : Prop where
  rep : Rep k.tab l.tab
  wf : l.tab.WF
  ctl : k.ctl = l.ctl

/-- A slot that a `fork` works on is an embryo, of priority 0 once `allocproc` is done, without
a parent until the fields are copied; no two work on the same.  A free slot has no parent. -/
structure Kernel.Forks (k : Kernel Lists) : Prop where
  embryo : ∀ p np st, k.ctl p = .fork np st → (k.tab.proc np).state = .embryo
  prio : ∀ p np st, k.ctl p = .fork np st → st ≠ .alloc → (k.tab.proc np).priority = 0
  parent : ∀ p np st, k.ctl p = .fork np st → st ≠ .copied → (k.tab.proc np).parent = none
  unique : ∀ p q np st st', k.ctl p = .fork np st → k.ctl q = .fork np st' → p = q
  free : ∀ p, (k.tab.proc p).state = .unused → (k.tab.proc p).parent = none

theorem KRep.can_iff {k : Kernel PTable} {l : Kernel Lists} (h : KRep k l) (act : Action) :
    k.can act ↔ l.canL act := by
  unfold Kernel.can Kernel.canL
  rw [h.rep.proc, h.ctl]

/-- The two outcomes of an action: the same panic, or related states. -/
def KSim (r : Except Panic (Kernel PTable)) (rl : Except Panic (Kernel Lists)) : Prop :=
  match rl with
  | .error e => r = .error e
  | .ok l => ∃ k, r = .ok k ∧ KRep k l

theorem Sim.kernel {r : Except Panic PTable} {a : Lists} (h : Sim r a) {f : PTable → Kernel PTable}
    {l : Kernel Lists} (hl : l.tab = a) (hf : ∀ s, (f s).tab = s ∧ (f s).ctl = l.ctl) :
    KSim (r.map f) (.ok l) := by
  obtain ⟨s, rfl, hr, hw⟩ := h
  subst hl
  refine ⟨f s, rfl, ?_, hw, (hf s).2⟩
  rw [(hf s).1]
  exact hr

theorem SimE.kernel {β : Type} {r : Except Panic (β × PTable)} {ra : Except Panic (β × Lists)}
    (h : SimE r ra) {c c' : Slot → Ctl} (hc : c = c') :
    KSim (r.map fun r => ⟨r.2, c⟩) (ra.map fun r => ⟨r.2, c'⟩) := by
  cases ra with
  | error e =>
    simp only [SimE] at h
    rw [h]
    rfl
  | ok v =>
    obtain ⟨s, rfl, hr, hw⟩ := h
    exact ⟨_, rfl, hr, hw, hc⟩

section
variable {k : Kernel PTable} {l : Kernel Lists}

theorem KRep.running (h : KRep k l) (hp : (k.tab.proc p).state = .running) :
    p ∈ l.tab.list .running := by
  rw [h.rep.proc] at hp
  exact (h.wf.mem_iff (by simp) p).2 hp

theorem Kernel.Forks.mem (hf : l.Forks) (h : KRep k l) {np : Slot} {stage : Stage}
    (hc : k.ctl p = .fork np stage) : np ∈ l.tab.list .embryo := by
  rw [h.ctl] at hc
  exact (h.wf.mem_iff (by simp) np).2 (hf.embryo p np stage hc)

theorem waitTurn_sim {s : PTable} {a : Lists} (h : Rep s a) (hw : a.WF)
    (hp : p ∈ a.list .running) (back : Bool) :
    ∃ s', s.waitTurn back p = .ok ((a.waitTurn back p).1, s') ∧ Rep s' (a.waitTurn back p).2 ∧
      (a.waitTurn back p).2.WF := by
  unfold PTable.waitTurn Lists.waitTurn
  cases back with
  | false => exact wait_sim h hw hp
  | true =>
    obtain ⟨h', w'⟩ := sleepReturn_sim h hw p
    exact wait_sim h' w' hp

/-- Every action over the table does what it does over the lists. -/
theorem exec_sim (h : KRep k l) (hf : l.Forks) {act : Action} (hc : k.can act) :
    KSim (k.exec act) (l.execL act) := by
  have hset : ∀ (p : Slot) (c : Ctl) (s : PTable) (a : Lists),
      (k.set p c s).tab = s ∧ (k.set p c s).ctl = (l.set p c a).ctl := by
    intro p c s a
    simp only [Kernel.set, h.ctl, and_self]
  have hctl := h.ctl
  cases act with
  | tick =>
    refine ⟨_, rfl, ⟨?_, h.rep.proc, h.rep.chain, h.rep.tail, ?_⟩, ?_, h.ctl⟩
    · simp only [h.rep.globals]
    · exact ⟨h.wf.disjoint.nodup, h.wf.disjoint.unique⟩
    · exact ⟨⟨h.wf.disjoint.nodup, h.wf.disjoint.unique⟩, h.wf.state, h.wf.total, h.wf.level,
        h.wf.prio⟩
  | scheduler => exact (scheduler_simE h.rep h.wf).kernel hctl
  | wakeup chan => exact (wakeup1_sim h.rep h.wf _).kernel rfl fun s => ⟨rfl, hctl⟩
  | yield p => exact (yield_sim h.rep h.wf (h.running hc.1)).kernel rfl fun s => ⟨rfl, hctl⟩
  | sleep p chan =>
    exact (sleep_sim h.rep h.wf (h.running hc.1) _).kernel rfl fun s => hset p _ s _
  | sleepReturn p =>
    obtain ⟨h', w'⟩ := sleepReturn_sim h.rep h.wf p
    exact ⟨_, rfl, h', w', (hset p _ k.tab l.tab).2⟩
  | trapKill p =>
    obtain ⟨h', w'⟩ := modify_sim h.rep h.wf (p := p) (f := fun q => { q with killed := true }) rfl
      (h.wf.prio p)
    exact ⟨_, rfl, h', w', hctl⟩
  | forkAlloc p =>
    obtain ⟨s', hs, h', w'⟩ := allocproc_sim h.rep h.wf
    unfold Kernel.exec Kernel.execL
    dsimp only
    rw [hs]
    cases l.tab.allocproc.1 with
    | none => exact ⟨_, rfl, h', w', hctl⟩
    | some np => exact ⟨_, rfl, h', w', (hset p _ k.tab l.tab).2⟩
  | kallocFail p np =>
    exact (allocprocFail_sim h.rep h.wf (hf.mem h hc.2)).kernel rfl fun s => hset p _ s _
  | kallocOk p np =>
    obtain ⟨h', w'⟩ := allocprocInit_sim h.rep h.wf np
    exact ⟨_, rfl, h', w', (hset p _ k.tab l.tab).2⟩
  | copyuvmFail p np =>
    exact (forkFail_sim h.rep h.wf (hf.mem h hc.2)).kernel rfl fun s => hset p _ s _
  | copyuvmOk p np =>
    obtain ⟨h', w'⟩ := forkCopy_sim h.rep h.wf p np
    exact ⟨_, rfl, h', w', (hset p _ k.tab l.tab).2⟩
  | forkReady p np =>
    exact (forkReady_sim h.rep h.wf (hf.mem h hc.2)).kernel rfl fun s => hset p _ s _
  | exit p =>
    unfold Kernel.exec Kernel.execL
    dsimp only
    have hinit : k.tab.initproc = l.tab.initproc := congrArg Globals.initproc h.rep.globals
    split
    · next hi =>
      unfold PTable.exit
      rw [if_pos (hinit.trans hi)]
      rfl
    · next hi =>
      exact (exit_sim h.rep h.wf (h.running hc.1) hi).kernel rfl fun s => ⟨rfl, hctl⟩
  | wait p =>
    obtain ⟨s', hs, h', w'⟩ := waitTurn_sim h.rep h.wf (h.running hc.1)
      (decide (k.ctl p = .waiting))
    unfold Kernel.exec Kernel.execL
    dsimp only
    rw [hs, hctl]
    rw [hctl] at h' w'
    exact ⟨_, rfl, h', w', (hset p _ k.tab l.tab).2⟩
  | kill p pid =>
    obtain ⟨s', hs, h', w'⟩ := kill_sim h.rep h.wf pid
    unfold Kernel.exec Kernel.execL
    dsimp only
    rw [hs]
    exact ⟨_, rfl, h', w', hctl⟩
  | setpriority p pID prio =>
    exact (setpriority_simE h.rep h.wf pID hc.2.2.2).kernel hctl

end

end Xv6.Procs
