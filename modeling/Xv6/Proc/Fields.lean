import Xv6.Proc.Priority

/-!
# What the operations do to a single field

Most operations write the state, the channel, the parent and a few more fields of a process.  A
relation between the old and the new record of a process that does not look at those (`Minor`) is
kept by all of them; `Lists.Keeps R` says so for every slot.  What is left are the operations that
write the field in question.  None but the scheduler writes `PromoteAtTime`.
-/

namespace Xv6.Procs

/-- A relation that does not look at what scheduling and `fork` write. -/
structure Minor (R : Proc → Proc → Prop) : Prop where
  refl : ∀ q, R q q
  trans : ∀ q q' q'', R q q' → R q' q'' → R q q''
  state : ∀ q st, R q { q with state := st }
  chan : ∀ q c, R q { q with chan := c }
  total : ∀ q t, R q { q with cpuTicksTotal := t }
  family : ∀ q p u g n, R q { q with parent := p, uid := u, gid := g, name := n }

namespace Lists

structure Keeps (R : Proc → Proc → Prop) (a a' : Lists) : Prop where
  ticks : a'.ticks = a.ticks
  time : a'.promoteAtTime = a.promoteAtTime
  proc : ∀ p, R (a.proc p) (a'.proc p)

section
variable {R : Proc → Proc → Prop} (hR : Minor R) {a b c : Lists} {p : Slot} {f : Proc → Proc}

include hR

theorem Keeps.refl (a : Lists) : Keeps R a a := ⟨rfl, rfl, fun _ => hR.refl _⟩

theorem Keeps.trans (h : Keeps R a b) (h' : Keeps R b c) : Keeps R a c :=
  ⟨h'.ticks.trans h.ticks, h'.time.trans h.time, fun p => hR.trans _ _ _ (h.proc p) (h'.proc p)⟩

theorem Keeps.modify (h : R (a.proc p) (f (a.proc p))) : Keeps R a (a.modify p f) := by
  refine ⟨rfl, rfl, fun q => ?_⟩
  by_cases he : q = p
  · subst he
    rw [modify_proc_self]
    exact h
  · rw [modify_proc_of_ne _ _ he]
    exact hR.refl _

theorem Keeps.requeue {src dst : ListId} (h : R (a.proc p) (f (a.proc p))) :
    Keeps R a (a.requeue src dst p f) :=
  ⟨rfl, rfl, (Keeps.modify hR h).proc⟩

theorem Keeps.mapSlots {l : List Slot} (h : ∀ p ∈ l, R (a.proc p) (f (a.proc p))) :
    Keeps R a (a.mapSlots l f) := by
  refine ⟨rfl, rfl, fun p => ?_⟩
  show R (a.proc p) (if p ∈ l then f (a.proc p) else a.proc p)
  split
  · next hp => exact h p hp
  · exact hR.refl _

/-! ## Operation by operation -/

theorem sched_keeps (a : Lists) (p : Slot) : Keeps R a (a.sched p) := .modify hR (hR.total _ _)

theorem wakeup1_keeps (a : Lists) (chan : Chan) : Keeps R a (a.wakeup1 chan) := by
  unfold wakeup1
  split
  · exact .refl hR a
  · exact .requeue hR (hR.state _ _)

theorem exitBefore_keeps (a : Lists) (p : Slot) : Keeps R a (a.exitBefore p) := by
  unfold exitBefore
  refine (wakeup1_keeps hR a (.ofProc (a.proc p).parent)).trans hR ?_
  rw [exitSearch_eq]
  have hadopt : ∀ b : Lists, Keeps R b (b.adopt p) := fun b =>
    .mapSlots hR fun q _ => hR.family _ b.initproc (b.proc q).uid (b.proc q).gid (b.proc q).name
  split
  · exact (hadopt _).trans hR (wakeup1_keeps hR _ _)
  · exact hadopt _

theorem exit_keeps (a : Lists) (p : Slot) : Keeps R a (a.exit p) := by
  rw [exit_eq]
  exact ((exitBefore_keeps hR a p).trans hR (.requeue hR (hR.state _ _))).trans hR
    (sched_keeps hR _ p)

theorem allocproc_keeps (hpid : ∀ q n, R q { q with pid := n }) (a : Lists) :
    Keeps R a a.allocproc.2 := by
  rcases allocproc_cases a with ⟨-, he⟩ | ⟨np, -, he⟩
  · rw [he]
    exact .refl hR a
  · rw [he]
    have hstate : Keeps R a (a.requeue .free .embryo np fun q => { q with state := .embryo }) :=
      .requeue hR (hR.state _ _)
    have hnew := hstate.trans hR (.modify hR (p := np) (f := fun q => { q with pid := a.nextpid })
      (hpid _ _))
    exact ⟨hnew.ticks, hnew.time, hnew.proc⟩

/-- A `kill` only sets `killed`, and only of processes that have the pid. -/
theorem kill_keeps (a : Lists) (pid : BitVec 32)
    (hkill : ∀ q : Proc, q.pid = pid → R q { q with killed := true }) :
    Keeps R a (a.kill pid).2 := by
  unfold kill searchFirst
  dsimp only
  split
  · dsimp only
    refine .mapSlots hR fun p _ => ?_
    split
    · next he => exact hkill _ (by simpa using he)
    · exact hR.refl _
  · split
    · exact .refl hR a
    · next p hp =>
      have hpid : (a.proc p).pid = pid := by simpa using List.find?_some hp
      have hm : Keeps R a (a.modify p fun q => { q with killed := true }) :=
        .modify hR (hkill _ hpid)
      dsimp only
      split
      · exact hm.trans hR (.requeue hR (hR.state _ _))
      · exact hm

/-- `promoteProcs` and `setpriority` write priorities and budgets, a dispatch the tick count. -/
theorem scheduler_keeps (hprio : ∀ q n t, R q { q with priority := n, budget := t })
    (hin : ∀ q t, R q { q with cpuTicksIn := t }) {a : Lists} (hw : a.WF) :
    Post (fun _ => True) (fun r => ∀ p, R (a.proc p) (r.2.proc p)) a.scheduler := by
  have hstep : ∀ b c : Lists, (∀ p, R (a.proc p) (b.proc p)) → Keeps R b c →
      ∀ p, R (a.proc p) (c.proc p) := fun b c hb hc p => hR.trans _ _ _ (hb p) (hc.proc p)
  refine scheduler_post (I := fun b => ∀ p, R (a.proc p) (b.proc p)) hw (fun _ => hR.refl _)
    (fun b hwb hb => promoteProcs_post ?_ ?_ hwb hb) (fun b t hb => hb) ?_ ?_ fun _ => id
  · intro c p i _ _ _ hc _
    exact requeueAt_post (fun _ => hstep _ _ hc (.requeue hR (hprio _ _ _))) fun _ => trivial
  · intro c id _ _ hc
    exact hstep _ _ hc (.mapSlots hR fun q _ => hprio _ _ _)
  · intro c i p _ hc _
    exact requeueAt_post (fun _ => hstep _ _ hc (.requeue hR (hR.state _ _))) fun _ => trivial
  · intro c p t hc
    exact hstep _ _ hc (.modify hR (hin _ _))

theorem setpriority_keeps (hprio : ∀ q n t, R q { q with priority := n, budget := t }) {a : Lists}
    (hw : a.WF) (pID : BitVec 32) (prio : Nat) :
    Post (fun _ => True) (fun r => ∀ p, R (a.proc p) (r.2.proc p)) (a.setpriority pID prio) := by
  refine setpriority_post (G := fun b => ∀ p, R (a.proc p) (b.proc p)) hw pID prio
    (fun _ _ => hR.refl _) (fun i p _ _ _ => ?_) fun p _ _ _ => ?_
  · exact requeueAt_post (fun _ => (Keeps.requeue hR (hprio _ _ _)).proc) fun _ => trivial
  · exact (Keeps.modify hR (hprio _ _ _)).proc

theorem reap_keeps (a : Lists) (p : Slot)
    (hreap : ∀ q : Proc, R q { q with pid := 0, parent := none, name := [], killed := false }) :
    Keeps R a (a.reap p) :=
  (Keeps.requeue hR (hR.state _ _)).trans hR (.modify hR (hreap _))

end

/-! ## Who the caller of `yield`, `sleep` and `wait` leaves behind -/

section
variable (a : Lists) (p : Slot)

theorem yield_proc_self : (a.yield p).proc p =
    { PTable.charge a.ticks (a.proc p) with
      state := .runnable
      cpuTicksTotal := (PTable.charge a.ticks (a.proc p)).cpuTicksTotal +
        (a.ticks - (PTable.charge a.ticks (a.proc p)).cpuTicksIn) } := by
  unfold yield sched
  dsimp only
  rw [modify_proc_self, requeue_proc, modify_proc_self, modify_proc_self]
  rfl

theorem yield_proc_of_ne {q : Slot} (h : q ≠ p) : (a.yield p).proc q = a.proc q := by
  unfold yield sched
  dsimp only
  rw [modify_proc_of_ne _ _ h, requeue_proc, modify_proc_of_ne _ _ h, modify_proc_of_ne _ _ h]

theorem sleep_proc_self (chan : Chan) : (a.sleep p chan).proc p =
    { PTable.charge a.ticks { a.proc p with chan := chan } with
      state := .sleeping
      cpuTicksTotal := (PTable.charge a.ticks { a.proc p with chan := chan }).cpuTicksTotal +
        (a.ticks - (PTable.charge a.ticks { a.proc p with chan := chan }).cpuTicksIn) } := by
  unfold sleep sched
  dsimp only
  rw [modify_proc_self, requeue_proc, modify_proc_self, modify_proc_self, modify_proc_self]
  rfl

theorem sleep_proc_of_ne (chan : Chan) {q : Slot} (h : q ≠ p) :
    (a.sleep p chan).proc q = a.proc q := by
  unfold sleep sched
  dsimp only
  rw [modify_proc_of_ne _ _ h, requeue_proc, modify_proc_of_ne _ _ h, modify_proc_of_ne _ _ h,
    modify_proc_of_ne _ _ h]

end

end Lists

/-! ## The actions that only schedule -/

/-- A relation that does not look at what the scheduler and `allocproc` write, either. -/
structure Unscheduled (R : Proc → Proc → Prop) : Prop extends Minor R where
  prio : ∀ q n t, R q { q with priority := n, budget := t }
  ticksIn : ∀ q t, R q { q with cpuTicksIn := t }
  born : ∀ q start total ticks n t, R q { q with
    startTicks := start
    cpuTicksTotal := total
    cpuTicksIn := ticks
    priority := n
    budget := t }

/-- The actions that write only what a `Minor` relation does not look at. -/
def Action.Quiet : Action → Prop
  | .wakeup _ | .sleepReturn _ | .kallocFail _ _ | .copyuvmFail _ _ | .copyuvmOk _ _
  | .forkReady _ _ | .exit _ => True
  | _ => False

/-- Not one of the actions that write `pid` or `killed`. -/
def Action.Plain : Action → Prop
  | .forkAlloc _ | .wait _ | .kill _ _ | .trapKill _ => False
  | _ => True

variable {act : Action}

theorem quiet_step {R : Proc → Proc → Prop} (hm : Minor R) {l l' : Kernel Lists}
    (h : l.execL act = .ok l') (hact : act.Quiet) : Lists.Keeps R l.tab l'.tab := by
  cases act with
  | wakeup chan => cases h; exact Lists.wakeup1_keeps hm _ _
  | sleepReturn p => cases h; exact .modify hm (f := fun x => { x with chan := .null }) (hm.chan _ _)
  | kallocFail p np | copyuvmFail p np | forkReady p np => cases h; exact .requeue hm (hm.state _ _)
  | copyuvmOk p np =>
    cases h
    have hkeep : Lists.Keeps R l.tab (l.tab.forkCopy p np) := .modify hm (hm.family _ _ _ _ _)
    exact hkeep
  | exit p =>
    obtain ⟨-, rfl⟩ := Kernel.execL_exit h
    exact Lists.exit_keeps hm _ p
  | _ => exact hact.elim

section
variable {R : Proc → Proc → Prop} (hR : Unscheduled R)

include hR

theorem charge_keeps (ticks : BitVec 32) (q : Proc) : R q (PTable.charge ticks q) := by
  unfold PTable.charge
  dsimp only
  split
  · exact hR.prio _ _ _
  · exact hR.prio _ q.priority _

theorem Lists.yield_keeps (a : Lists) (p : Slot) : Keeps R a (a.yield p) := by
  have hm := hR.toMinor
  exact ((Keeps.modify hm (charge_keeps hR a.ticks _)).trans hm (.requeue hm (hm.state _ _))).trans hm
    (sched_keeps hm _ p)

theorem Lists.sleep_keeps (a : Lists) (p : Slot) (chan : Chan) : Keeps R a (a.sleep p chan) := by
  have hm := hR.toMinor
  have hchan : Keeps R a (a.modify p fun q => { q with chan := chan }) := .modify hm (hm.chan _ _)
  exact ((hchan.trans hm (.modify hm (charge_keeps hR a.ticks _))).trans hm
    (.requeue hm (hm.state _ _))).trans hm (sched_keeps hm _ p)

theorem Lists.waitTurn_keeps (a : Lists) (p : Slot) (back : Bool)
    (hreap : ∀ q : Proc, R q { q with pid := 0, parent := none, name := [], killed := false }) :
    Keeps R a (a.waitTurn back p).2 := by
  have hm := hR.toMinor
  obtain ⟨b, d, hb, hd, hr⟩ := a.waitTurn_cases p back
  have hab : Keeps R a b := by
    rcases hb with rfl | rfl
    · exact .refl hm _
    · exact .modify hm (hm.chan _ _)
  have hbd : Keeps R b d := by
    rcases hd with rfl | ⟨c, -, rfl⟩
    · exact .refl hm _
    · exact reap_keeps hm b c hreap
  rcases hr with ⟨-, hr⟩ | ⟨-, hr⟩
  · rw [hr]
    exact hab.trans hm hbd
  · rw [hr]
    exact (hab.trans hm hbd).trans hm (sleep_keeps hR d p _)

theorem Lists.allocInit_keeps (a : Lists) (p : Slot) : Keeps R a (a.allocInit p) :=
  .modify hR.toMinor (hR.born _ _ _ _ _ _)

theorem keeps_step {l l' : Kernel Lists} (hw : l.tab.WF)
    (h : l.execL act = .ok l') (hact : act.Plain) (q : Slot) :
    R (l.tab.proc q) (l'.tab.proc q) := by
  have hm := hR.toMinor
  cases act with
  | tick => cases h; exact hm.refl _
  | scheduler =>
    obtain ⟨r, hr, rfl⟩ := map_ok h
    exact (Lists.scheduler_keeps hm hR.prio hR.ticksIn hw).of_ok hr q
  | yield p => cases h; exact (Lists.yield_keeps hR _ p).proc q
  | sleep p chan => cases h; exact (Lists.sleep_keeps hR _ p _).proc q
  | kallocOk p np => cases h; exact (Lists.allocInit_keeps hR _ np).proc q
  | setpriority p pID prio =>
    obtain ⟨r, hr, rfl⟩ := map_ok h
    exact (Lists.setpriority_keeps hm hR.prio hw pID prio).of_ok hr q
  | forkAlloc p | wait p | kill p pid | trapKill p => exact hact.elim
  | _ => exact (quiet_step hm h trivial).proc q

end

/-! ## The life of a process -/

/-- How an action can change the state of the slot `p`. -/
inductive Turn (act : Action) (p : Slot) : ProcState → ProcState → Prop
  | same {st : ProcState} : Turn act p st st
  | resched {st st' : ProcState} : st.alive → st'.alive → Turn act p st st'
  | alloc {q : Slot} : act = .forkAlloc q → Turn act p .unused .embryo
  | fail {q : Slot} : act = .kallocFail q p ∨ act = .copyuvmFail q p → Turn act p .embryo .unused
  | ready {q : Slot} : act = .forkReady q p → Turn act p .embryo .runnable
  | exit {st : ProcState} : act = .exit p → st.alive → Turn act p st .zombie
  | reap {q : Slot} : act = .wait q → Turn act p .zombie .unused

theorem Lists.Resched.turn {a a' : Lists} (h : a.Resched a') (act : Action) (p : Slot) :
    Turn act p (a.proc p).state (a'.proc p).state := by
  rcases (h.proc p).state with e | ⟨ha, hb⟩
  · rw [e]
    exact .same
  · exact .resched ha hb

/-- One slot changes, the others keep their state. -/
theorem turn_of_modify {a a' : Lists} {p : Slot} (np : Slot) (f : Proc → Proc)
    (ha : a'.proc = (a.modify np f).proc)
    (hnp : Turn act np (a.proc np).state (f (a.proc np)).state) :
    Turn act p (a.proc p).state (a'.proc p).state := by
  rw [ha]
  by_cases he : p = np
  · subst he
    rw [Lists.modify_proc_self]
    exact hnp
  · rw [Lists.modify_proc_of_ne _ _ he]
    exact .same

theorem exit_turn {a : Lists} (hw : a.WF) {proc : Slot} (hp : (a.proc proc).state = .running)
    (p : Slot) : Turn (.exit proc) p (a.proc p).state ((a.exit proc).proc p).state := by
  by_cases he : p = proc
  · subst he
    rw [(a.exit_proc_self p).1, hp]
    exact .exit rfl trivial
  · rw [a.exit_proc_of_ne he]
    rcases exitBefore_state hw proc p with e | ⟨ha, hb⟩
    · rw [e]
      exact .same
    · exact .resched ha hb

theorem waitTurn_turn {a : Lists} (hw : a.WF) {proc : Slot} (hp : (a.proc proc).state = .running)
    (back : Bool) (p : Slot) :
    Turn (.wait proc) p (a.proc p).state ((a.waitTurn back proc).2.proc p).state := by
  obtain ⟨b, d, -, hbs, hd, hr⟩ := Lists.waitTurn_resched hw hp back
  have hturn := hr.turn (.wait proc) p
  rcases hd with rfl | ⟨c, hz, rfl⟩
  · rwa [hbs] at hturn
  · by_cases he : p = c
    · subst he
      rcases (hr.proc p).state with e | ⟨hu, -⟩
      · rw [e, b.reap_proc_self, hz]
        exact .reap rfl
      · rw [b.reap_proc_self] at hu
        exact hu.elim
    · rwa [b.reap_proc_of_ne he, hbs] at hturn

theorem turn_step {l l' : Kernel Lists} (hw : l.tab.WF) (hf : l.Forks)
    (hc : l.canL act) (h : l.execL act = .ok l') (p : Slot) :
    Turn act p (l.tab.proc p).state (l'.tab.proc p).state := by
  cases Kernel.moves hw hc h with
  | resched h _ => exact h.turn act p
  | alloc hnp =>
    show Turn _ p _ (l.tab.allocproc.2.proc p).state
    rw [allocproc_proc hnp]
    split
    · next hp =>
      rw [hp, allocproc_free hw hnp]
      exact .alloc rfl
    · exact .same
  | @fail _ q np st hact hctl _ =>
    refine turn_of_modify np (fun x => { x with state := .unused }) rfl ?_
    rw [hf.embryo q np _ hctl]
    exact .fail hact
  | @init _ np _ => exact turn_of_modify np _ rfl .same
  | @copy _ np _ => exact turn_of_modify np _ rfl .same
  | @ready q np hctl =>
    refine turn_of_modify np (fun x => { x with state := .runnable }) rfl ?_
    rw [hf.embryo q np _ hctl]
    exact .ready rfl
  | exit hp => exact exit_turn hw hp p
  | wait hp back _ => exact waitTurn_turn hw hp back p

end Xv6.Procs
