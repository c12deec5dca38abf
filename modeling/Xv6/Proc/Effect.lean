import Xv6.Lib.Post
import Xv6.Proc.System

/-!
# What an operation can change

Most operations only reschedule: they leave every parent alone, move a process
only among SLEEPING, RUNNABLE and RUNNING, and do not touch the priority of an
embryo.  `Lists.Resched` says so, once for all of them, and composes; what
`fork`, `exit` and `wait` do beyond that is stated where it is used.
-/

namespace Xv6.Procs

open List

variable {p : Slot} {a : Lists} {f : Proc → Proc} {I : Lists → Prop}

/-- The states of a process that can still run. -/
def ProcState.alive : ProcState → Prop
  | .sleeping | .runnable | .running => True
  | _ => False

/-- Only a process that is inside `wait` has a slot as its channel, and that is its own; a
process does not sleep on the null channel. -/
def Proc.OwnChan (p : Slot) (q : Proc) : Prop :=
  (∀ r, q.chan = .proc r → r = p) ∧ (q.state = .sleeping → q.chan ≠ .null)

theorem Proc.OwnChan.of_null {q : Proc} (hc : q.chan = .null) (hs : q.state ≠ .sleeping) :
    q.OwnChan p := by
  refine ⟨fun r hr => ?_, fun h => absurd h hs⟩
  rw [hc] at hr
  cases hr

theorem Proc.OwnChan.of_chan {q q' : Proc} (hc : q'.chan = q.chan)
    (hs : q'.state = .sleeping → q.state = .sleeping) (h : q.OwnChan p) : q'.OwnChan p := by
  unfold Proc.OwnChan
  rw [hc]
  exact ⟨h.1, fun hs' => h.2 (hs hs')⟩

/-- What rescheduling can do to the fields of the slot `p`. -/
structure Proc.Resched (p : Slot) (q q' : Proc) : Prop where
  parent : q'.parent = q.parent
  state : q'.state = q.state ∨ (q.state.alive ∧ q'.state.alive)
  embryo : q.state = .embryo → q'.priority = q.priority
  chan : q.OwnChan p → q'.OwnChan p

structure Lists.Resched (a a' : Lists) : Prop where
  initproc : a'.initproc = a.initproc
  proc : ∀ p, (a.proc p).Resched p (a'.proc p)

theorem Proc.Resched.refl (p : Slot) (q : Proc) : q.Resched p q :=
  ⟨rfl, Or.inl rfl, fun _ => rfl, id⟩

theorem Proc.Resched.trans {q q' q'' : Proc} (h : q.Resched p q') (h' : q'.Resched p q'') :
    q.Resched p q'' where
  parent := h'.parent.trans h.parent
  state := by
    rcases h.state with e | ⟨ha, hb⟩
    · rw [← e]
      exact h'.state
    · rcases h'.state with e | ⟨-, hc⟩
      · exact Or.inr ⟨ha, e ▸ hb⟩
      · exact Or.inr ⟨ha, hc⟩
  embryo he := by
    have he' : q'.state = .embryo := by
      rcases h.state with e | ⟨ha, -⟩
      · rw [e, he]
      · rw [he] at ha
        exact ha.elim
    rw [h'.embryo he', h.embryo he]
  chan hc := h'.chan (h.chan hc)

/-- A write to fields of a process that can run, which leaves its parent alone and keeps it
among the states of such processes. -/
theorem Proc.Resched.of_alive {q q' : Proc} (hq : q.state.alive) (hp : q'.parent = q.parent)
    (hs : q'.state.alive) (hc : q.OwnChan p → q'.OwnChan p) : q.Resched p q' :=
  ⟨hp, Or.inr ⟨hq, hs⟩, fun he => by rw [he] at hq; exact hq.elim, hc⟩

/-- A process that can run is made RUNNABLE or RUNNING. -/
theorem Proc.Resched.of_state {q : Proc} (hq : q.state.alive) {st : ProcState} (hs : st.alive)
    (hne : st ≠ .sleeping) : q.Resched p { q with state := st } :=
  .of_alive hq rfl hs (.of_chan rfl fun he => absurd he hne)

namespace Lists

theorem Resched.refl (a : Lists) : a.Resched a := ⟨rfl, fun p => .refl p _⟩

theorem Resched.trans {b c : Lists} (h : a.Resched b) (h' : b.Resched c) : a.Resched c :=
  ⟨h'.initproc.trans h.initproc, fun p => (h.proc p).trans (h'.proc p)⟩

theorem Resched.modify (a : Lists) (h : (a.proc p).Resched p (f (a.proc p))) :
    a.Resched (a.modify p f) := by
  refine ⟨rfl, fun q => ?_⟩
  by_cases he : q = p
  · subst he
    rw [modify_proc_self]
    exact h
  · rw [modify_proc_of_ne _ _ he]
    exact .refl q _

theorem Resched.requeue (a : Lists) {src dst : ListId} (h : (a.proc p).Resched p (f (a.proc p))) :
    a.Resched (a.requeue src dst p f) :=
  ⟨rfl, (Resched.modify a h).proc⟩

theorem Resched.mapSlots (a : Lists) {l : List Slot}
    (h : ∀ p ∈ l, (a.proc p).Resched p (f (a.proc p))) : a.Resched (a.mapSlots l f) := by
  refine ⟨rfl, fun p => ?_⟩
  show (a.proc p).Resched p (if p ∈ l then f (a.proc p) else a.proc p)
  split
  · next hp => exact h p hp
  · exact .refl p _

variable {a' : Lists}

theorem Resched.alive_iff (h : a.Resched a') (p : Slot) :
    (a'.proc p).state.alive ↔ (a.proc p).state.alive := by
  rcases (h.proc p).state with e | ⟨ha, hb⟩
  · rw [e]
  · simp only [ha, hb]

theorem Resched.state_of_not_alive (h : a.Resched a') (hp : ¬ (a.proc p).state.alive) :
    (a'.proc p).state = (a.proc p).state := by
  rcases (h.proc p).state with e | ⟨ha, -⟩
  · exact e
  · exact absurd ha hp

/-! ## The operations that only reschedule -/

theorem sched_resched (a : Lists) (p : Slot) : a.Resched (a.sched p) :=
  .modify a ⟨rfl, Or.inl rfl, fun _ => rfl, id⟩

theorem charge_parent (ticks : BitVec 32) (q : Proc) :
    (PTable.charge ticks q).parent = q.parent ∧ (PTable.charge ticks q).chan = q.chan := by
  unfold PTable.charge
  dsimp only
  split <;> exact ⟨rfl, rfl⟩

theorem charge_resched (a : Lists) (hp : (a.proc p).state = .running) (ticks : BitVec 32) :
    a.Resched (a.modify p (PTable.charge ticks)) := by
  obtain ⟨hpar, hchan⟩ := charge_parent ticks (a.proc p)
  refine .modify a (.of_alive ?_ hpar ?_ ?_)
  · rw [hp]; trivial
  · rw [charge_state, hp]; trivial
  · exact .of_chan hchan fun hs => by rwa [charge_state] at hs

theorem yield_resched (a : Lists) (hp : (a.proc p).state = .running) : a.Resched (a.yield p) := by
  have hp' : ((a.modify p (PTable.charge a.ticks)).proc p).state = .running := by
    rw [modify_proc_self, charge_state, hp]
  refine (charge_resched a hp a.ticks).trans (Resched.trans ?_ (sched_resched _ p))
  exact .requeue _ (.of_state (by rw [hp']; trivial) trivial (by simp))

theorem sleep_resched (a : Lists) (hp : (a.proc p).state = .running) {chan : Chan}
    (hc : ∀ r, chan = .proc r → r = p) (hn : chan ≠ .null) : a.Resched (a.sleep p chan) := by
  have h₁ : a.Resched (a.modify p fun q => { q with chan := chan }) :=
    .modify a ⟨rfl, Or.inl rfl, fun _ => rfl, fun _ => ⟨hc, fun _ => hn⟩⟩
  have hp₁ : ((a.modify p fun q => { q with chan := chan }).proc p).state = .running := by
    rw [modify_proc_self, hp]
  refine h₁.trans ((charge_resched _ hp₁ a.ticks).trans (Resched.trans ?_ (sched_resched _ p)))
  refine .requeue _ (.of_alive ?_ rfl trivial fun hown => ⟨hown.1, fun _ => ?_⟩)
  · rw [modify_proc_self, charge_state, hp₁]
    trivial
  · rw [modify_proc_self, (charge_parent _ _).2, modify_proc_self]
    exact hn

theorem wakeup1_resched (a : Lists) (hw : a.WF) (chan : Chan) : a.Resched (a.wakeup1 chan) := by
  unfold wakeup1
  split
  · exact .refl a
  · next p hp =>
    have hst := hw.state .sleep p (mem_of_find?_eq_some hp)
    exact .requeue a (.of_state (by rw [hst]; trivial) trivial (by simp))

theorem sleepReturn_resched (a : Lists) (hp : (a.proc p).state = .running) :
    a.Resched (a.modify p fun q => { q with chan := .null }) := by
  refine .modify a ⟨rfl, Or.inl rfl, fun _ => rfl, fun _ => .of_null rfl ?_⟩
  show (a.proc p).state ≠ .sleeping
  rw [hp]
  simp

theorem killed_resched (p : Slot) (q : Proc) : q.Resched p { q with killed := true } :=
  ⟨rfl, Or.inl rfl, fun _ => rfl, id⟩

theorem trapKill_resched (a : Lists) (p : Slot) :
    a.Resched (a.modify p fun q => { q with killed := true }) :=
  .modify a (killed_resched p _)

theorem kill_resched (a : Lists) (hw : a.WF) (pid : BitVec 32) : a.Resched (a.kill pid).2 := by
  unfold kill searchFirst
  dsimp only
  split
  · dsimp only
    refine .mapSlots a fun p _ => ?_
    split
    · exact killed_resched p _
    · exact .refl p _
  · next z hz =>
    have hst := hw.state .sleep z (mem_of_head? hz)
    split
    · exact .refl a
    · next p hp =>
      have hm := trapKill_resched a p
      dsimp only
      split
      · next he =>
        subst he
        refine hm.trans (.requeue _ (.of_state ?_ trivial (by simp)))
        rw [modify_proc_self, hst]
        trivial
      · exact hm

/-! ## setpriority, promoteProcs, the scheduler

Rules for the loops: what every single move keeps, the loop keeps. -/

section
variable {Q : Panic → Prop}

theorem requeueAt_post {P : Lists → Prop} {i : Nat} {dst : ListId}
    (hP : (a.proc p).priority = i → P (a.requeue (.ready i) dst p f))
    (hQ : (a.proc p).priority ≠ i → Q .assertPrio) : Post Q P (a.requeueAt i dst p f) := by
  unfold requeueAt
  split
  · next h => exact hQ h
  · next h => exact hP (by simpa using h)

theorem requeueAt_wf (hw : a.WF) {i : Nat} {dst : ListId} (hp : p ∈ a.list (.ready i))
    (hst : (f (a.proc p)).state = dst.state) (hpr : (f (a.proc p)).priority ≤ maxPrio)
    (hdst : ∀ j, dst = .ready j → j ≤ maxPrio) (h : a.requeueAt i dst p f = .ok a') : a'.WF := by
  unfold requeueAt at h
  split at h
  · cases h
  · cases h
    exact hw.requeue hp hst hpr hdst

/-- The processes on the ready lists, in the order in which the scheduler looks at them. -/
def queue (a : Lists) : List Slot := (List.range (maxPrio + 1)).flatMap fun i => a.list (.ready i)

/-- The process that `setpriority` works on: the first with the pid. -/
def setprioTarget (pID : BitVec 32) (a : Lists) : Option Slot :=
  (a.queue ++ a.list .sleep ++ a.list .running).find? fun p => (a.proc p).pid = pID

/-- The ready loops of `setpriority`: they stop at the first process that has the pid. -/
theorem setprioLevels_cases (a : Lists) (pID : BitVec 32) (prio : Nat) :
    (a.queue.find? (fun p => (a.proc p).pid = pID) = none ∧
      forIn (fun i a => forIn (setprioReady i pID prio) (a.list (.ready i)) a)
        (List.range (maxPrio + 1)) a = .ok (none, a)) ∨
    ∃ i p, p ∈ a.list (.ready i) ∧ a.queue.find? (fun p => (a.proc p).pid = pID) = some p ∧
      forIn (fun i a => forIn (setprioReady i pID prio) (a.list (.ready i)) a)
        (List.range (maxPrio + 1)) a = a.setprioReady i pID prio p := by
  have hstop : ∀ i p a', (a.proc p).pid = pID → a.setprioReady i pID prio p ≠ .ok (none, a') := by
    intro i p a' hp he
    rw [setprioReady, if_pos hp] at he
    split at he
    · obtain ⟨b, -, hb⟩ := map_ok he
      cases hb
    · cases he
  have hlevel := fun i => forIn_pick (setprioReady i pID prio) (s := a)
    (Option.guard fun p => decide ((a.proc p).pid = pID))
    (fun p hp => if_neg (by simpa using hp)) (fun p q a' hp => hstop i p a' (by
      simpa using (Option.guard_eq_some_iff.1 hp).2)) (a.list (.ready i))
  simp only [← find?_eq_findSome?_guard] at hlevel
  have houter := forIn_pick (fun i a => forIn (setprioReady i pID prio) (a.list (.ready i)) a)
    (s := a) (fun i => (a.list (.ready i)).find? fun p => decide ((a.proc p).pid = pID))
    (fun i hi => by
      rcases hlevel i with ⟨-, h⟩ | ⟨q, -, y, -, hf, -⟩
      · exact h
      · exact absurd (hi.symm.trans hf) nofun)
    (fun i p a' hp => by
      rcases hlevel i with ⟨h, -⟩ | ⟨q, -, y, hy, -, hr⟩
      · exact absurd (h.symm.trans hp) nofun
      · rw [hr]
        exact hstop i q a' (by simpa using (Option.guard_eq_some_iff.1 hy).2))
    (List.range (maxPrio + 1))
  rw [queue, find?_flatMap]
  refine houter.imp_right ?_
  rintro ⟨i, -, p, hp, hfind, hrun⟩
  rcases hlevel i with ⟨h, -⟩ | ⟨q, hq, y, hy, hf, hr⟩
  · exact absurd (h.symm.trans hp) nofun
  · obtain ⟨rfl, -⟩ := Option.guard_eq_some_iff.1 hy
    cases hp.symm.trans hf
    exact ⟨i, _, hq, hfind, hrun.trans hr⟩

/-- `setpriority` changes nothing if there is no target or it has the priority, and else moves its
target between levels, or writes the priority of one that sleeps or runs. -/
theorem setpriority_post {G : Lists → Prop} {a : Lists} (hw : a.WF) (pID : BitVec 32) (prio : Nat)
    (h0 : (∀ p, a.setprioTarget pID = some p → (a.proc p).priority = prio) → G a)
    (hready : ∀ i p, p ∈ a.list (.ready i) → a.setprioTarget pID = some p →
      (a.proc p).priority ≠ prio → Post Q G (a.requeueAt i (.ready prio) p
        fun q => { q with priority := prio, budget := maxBudget }))
    (hother : ∀ p, (a.proc p).state = .sleeping ∨ (a.proc p).state = .running →
      a.setprioTarget pID = some p → (a.proc p).priority ≠ prio →
      G (a.modify p fun q => { q with priority := prio, budget := maxBudget })) :
    Post Q (fun r => G r.2) (a.setpriority pID prio) := by
  have hin : ∀ id, (∀ p ∈ a.list id, (a.proc p).state = .sleeping ∨ (a.proc p).state = .running) →
      (∀ p, (a.list id).find? (fun p => (a.proc p).pid = pID) = some p →
        a.setprioTarget pID = some p) →
      ((a.setprioIn id pID prio).1 = none → (a.setprioIn id pID prio).2 = a ∧
        (a.list id).find? (fun p => (a.proc p).pid = pID) = none) ∧
      ((a.setprioIn id pID prio).1 ≠ none → G (a.setprioIn id pID prio).2) := by
    intro id hid htarget
    unfold setprioIn
    split
    next hp => exact ⟨fun _ => ⟨rfl, hp⟩, fun h => absurd rfl h⟩
    next p hp =>
      refine ⟨nofun, fun _ => ?_⟩
      dsimp only
      split
      next hpr => exact hother p (hid p (mem_of_find?_eq_some hp)) (htarget p hp) hpr
      next hpr =>
        refine h0 fun q hq => ?_
        cases (htarget p hp).symm.trans hq
        exact not_not.1 hpr
  unfold setpriority
  rcases setprioLevels_cases a pID prio with ⟨hq, hrun⟩ | ⟨i, p, hp, hfind, hrun⟩
  · rw [hrun]
    have hs := hin .sleep (fun p hp => .inl (hw.state .sleep p hp)) fun p hp => by
      rw [setprioTarget, find?_append, find?_append, hq, hp]
      rfl
    dsimp only [bind, Except.bind]
    split
    next v b hv =>
      rw [hv] at hs
      exact hs.2 nofun
    next b hv =>
      rw [hv] at hs
      obtain ⟨rfl, hnone⟩ := hs.1 rfl
      have hr := hin .running (fun p hp => .inr (hw.state .running p hp)) fun p hp => by
        rw [setprioTarget, find?_append, find?_append, hq, hnone, hp]
        rfl
      have : ∀ r : Option Int × Lists, (PTable.orElse (-1) r).2 = r.2 := by
        rintro ⟨_ | _, _⟩ <;> rfl
      show G (PTable.orElse (-1) (b.setprioIn .running pID prio)).2
      rw [this]
      by_cases hn : (b.setprioIn .running pID prio).1 = none
      · obtain ⟨hsame, hnone'⟩ := hr.1 hn
        rw [hsame]
        refine h0 fun p hp => ?_
        rw [setprioTarget, find?_append, find?_append, hq, hnone, hnone'] at hp
        cases hp
      · exact hr.2 hn
  · have htarget : a.setprioTarget pID = some p := by
      rw [setprioTarget, find?_append, find?_append, hfind]
      rfl
    have hpid : (a.proc p).pid = pID := by simpa using find?_some hfind
    rw [hrun, setprioReady, if_pos hpid]
    split
    next hpr =>
      refine Post.bind (P := fun r => r.1 = some 0 ∧ G r.2)
        (Post.map ((hready i p hp htarget hpr).mono fun b hb => ⟨rfl, hb⟩)) ?_
      rintro ⟨_, b⟩ ⟨rfl, hb⟩
      exact hb
    next hpr =>
      refine h0 fun q hq => ?_
      cases htarget.symm.trans hq
      exact not_not.1 hpr

/-- What every single promotion keeps, `promoteLevel` keeps. -/
theorem promoteLevel_post {I : Lists → Prop} {i : Nat} (hi : 0 < i) (hm : i ≤ maxPrio)
    (hstep : ∀ a p, a.WF → I a → (a.list (.ready i)).head? = some p → Post Q I
      (a.requeueAt i (.ready (i - 1)) p fun q =>
        { q with priority := q.priority - 1, budget := maxBudget })) {a : Lists} (hw : a.WF)
    (ha : I a) : Post Q (fun a' => a'.WF ∧ I a') (a.promoteLevel i) := by
  unfold promoteLevel
  refine (Post.foldlM (fun l b => (b.WF ∧ I b) ∧ b.list (.ready i) = l) ?_ _ _ ⟨⟨hw, ha⟩, rfl⟩).mono
    fun b hb => hb.1
  rintro p l b ⟨⟨hwb, hb⟩, hl⟩
  have hp : p ∈ b.list (.ready i) := by rw [hl]; exact mem_cons_self
  have hst := hwb.state _ p hp
  have hpost := hstep b p hwb hb (by rw [hl]; rfl)
  cases hr : b.requeueAt i (.ready (i - 1)) p (fun q =>
      { q with priority := q.priority - 1, budget := maxBudget }) with
  | error e =>
    rw [hr] at hpost
    exact hpost
  | ok c =>
    rw [hr] at hpost
    refine ⟨⟨requeueAt_wf hwb hp hst ?_ ?_ hr, hpost⟩, ?_⟩
    · exact Nat.le_trans (Nat.sub_le _ _) (hwb.prio p)
    · rintro j ⟨⟩
      omega
    · unfold requeueAt at hr
      split at hr
      · cases hr
      · cases hr
        exact requeue_list_head b hl (by simp; omega) _

/-- What the promotions and the writes to sleepers and runners keep, `promoteProcs` keeps. -/
theorem promoteProcs_post {I : Lists → Prop}
    (hstep : ∀ a p i, 0 < i → i ≤ maxPrio → a.WF → I a → (a.list (.ready i)).head? = some p →
      Post Q I (a.requeueAt i (.ready (i - 1)) p fun q =>
        { q with priority := q.priority - 1, budget := maxBudget }))
    (hmap : ∀ a id, id = .sleep ∨ id = .running → a.WF → I a →
      I (a.mapSlots (a.list id) promote)) {a : Lists} (hw : a.WF) (ha : I a) :
    Post Q (fun a' => a'.WF ∧ I a') a.promoteProcs := by
  have hpw : ∀ (b : Lists) id, b.WF → (b.mapSlots (b.list id) promote).WF := by
    intro b id hb
    refine hb.mapSlots (fun _ _ => rfl) fun p _ => ?_
    have := hb.prio p
    unfold promote
    dsimp only
    split <;> omega
  unfold promoteProcs
  refine Post.bind (P := fun b => b.WF ∧ I b) ?_ ?_
  · refine (Post.foldlM (fun l b => (b.WF ∧ I b) ∧ ∀ i ∈ l, 0 < i ∧ i ≤ maxPrio) ?_ _ _
      ⟨⟨hw, ha⟩, ?_⟩).mono fun b hb => hb.1
    · rintro i l b ⟨⟨hwb, hb⟩, hl⟩
      obtain ⟨hi, hm⟩ := hl i mem_cons_self
      exact (promoteLevel_post hi hm (fun a p => hstep a p i hi hm) hwb hb).mono fun c hc =>
        ⟨hc, fun j hj => hl j (mem_cons_of_mem i hj)⟩
    · intro i hi
      rw [mem_range'_1] at hi
      omega
  · rintro b ⟨hwb, hb⟩
    have hws := hpw b .sleep hwb
    exact ⟨hpw _ .running hws, hmap _ _ (Or.inr rfl) hws (hmap b _ (Or.inl rfl) hwb hb)⟩

/-- The scheduler: a promotion when it is due, then the first process of the first level
that has one. -/
theorem scheduler_post {I J : Lists → Prop} {a : Lists} (hw : a.WF) (ha : I a)
    (hprom : ∀ b, b.WF → I b → Post Q (fun b' => b'.WF ∧ I b') b.promoteProcs)
    (htime : ∀ b t, I b → I { b with promoteAtTime := t })
    (hdisp : ∀ b i p, b.WF → I b → (b.list (.ready i)).head? = some p → Post Q (fun b' => J b')
      (b.requeueAt i .running p fun q => { q with state := .running }))
    (hin : ∀ b p t, J b → J (b.modify p fun q => { q with cpuTicksIn := t }))
    (hIJ : ∀ b, I b → J b) :
    Post Q (fun r => J r.2) a.scheduler := by
  unfold scheduler
  refine Post.bind (P := fun b => b.WF ∧ I b) ?_ ?_
  · split
    · refine (hprom a hw ha).bind fun b hb => ⟨?_, htime b _ hb.2⟩
      exact ⟨⟨hb.1.disjoint.nodup, hb.1.disjoint.unique⟩, hb.1.state, hb.1.total, hb.1.level,
        hb.1.prio⟩
    · exact ⟨hw, ha⟩
  · rintro b ⟨hwb, hb⟩
    refine Post.forIn (fun _ c => c.WF ∧ I c) ?_ (fun c hc => hIJ c hc.2) _ _ ⟨hwb, hb⟩
    rintro i l c ⟨hwc, hc⟩
    unfold dispatch
    split
    · exact ⟨fun _ => ⟨hwc, hc⟩, fun he => absurd rfl he⟩
    · next p hp =>
      refine Post.map ((hdisp c i p hwc hc hp).mono
        fun d hd => ⟨fun he => (by cases he), fun _ => ?_⟩)
      exact hin d p _ hd

end

theorem setprio_resched (hw : a.WF) {l : ListId} (hp : p ∈ a.list l) (hl : l.state.alive)
    (prio : Nat) :
    (a.proc p).Resched p { a.proc p with priority := prio, budget := maxBudget } := by
  have hst := hw.state l p hp
  exact .of_alive (by rw [hst]; exact hl) rfl (by rw [hst]; exact hl) id

theorem setpriority_resched (hw : a.WF) (pID : BitVec 32) (prio : Nat) :
    Post (fun e => e = .assertPrio) (fun r => a.Resched r.2) (a.setpriority pID prio) := by
  refine setpriority_post hw pID prio (fun _ => .refl a) (fun i p hp _ _ => ?_) (fun p hp _ _ => ?_)
  · exact requeueAt_post (fun _ => .requeue a (setprio_resched hw hp trivial prio)) fun _ => rfl
  · refine .modify a (.of_alive ?_ rfl ?_ id)
    · rcases hp with hp | hp <;> rw [hp] <;> trivial
    · rcases hp with hp | hp <;> rw [hp] <;> trivial

theorem promoteProcs_resched {b : Lists} (hw : b.WF) (h : a.Resched b) :
    Post (fun e => e = .assertPrio) (fun b' => b'.WF ∧ a.Resched b') b.promoteProcs := by
  refine promoteProcs_post ?_ ?_ hw h
  · intro b p i _ _ hwb hb hp
    have hst := hwb.state _ p (mem_of_head? hp)
    refine requeueAt_post (fun _ => hb.trans (.requeue b (.of_alive ?_ rfl ?_ id))) fun _ => rfl
    · rw [hst]; trivial
    · rw [hst]; trivial
  · intro b l hl hwb hb
    refine hb.trans (.mapSlots b fun p hp => ?_)
    have hst := hwb.state l p hp
    have ha : l.state.alive := by rcases hl with rfl | rfl <;> trivial
    exact .of_alive (by rw [hst]; exact ha) rfl (by unfold promote; rw [hst]; exact ha) id

theorem scheduler_resched (hw : a.WF) :
    Post (fun e => e = .assertPrio) (fun r => a.Resched r.2) a.scheduler := by
  refine scheduler_post hw (.refl a) (fun b hwb hb => promoteProcs_resched hwb hb)
    (fun b t hb => ⟨hb.initproc, hb.proc⟩) ?_ ?_ fun _ => id
  · intro b i p hwb hb hp
    have hst := hwb.state _ p (mem_of_head? hp)
    refine requeueAt_post (fun _ => hb.trans (.requeue b (.of_state ?_ trivial (by simp))))
      fun _ => rfl
    rw [hst]
    trivial
  · exact fun b p t hb => hb.trans (.modify b ⟨rfl, Or.inl rfl, fun _ => rfl, id⟩)

/-! ## exit and wait -/

/-- The processes whose parent is `pExit`, in search order. -/
def children (pExit : Slot) (a : Lists) : List Slot :=
  a.search.filter fun p => decide ((a.proc p).parent = some pExit)

/-- The children that `exit` passes to init: all of them while there is no zombie, and only
the first one otherwise. -/
def adopted (pExit : Slot) (a : Lists) : List Slot :=
  if a.list .zombie = [] then a.children pExit else (a.children pExit).take 1

def adopt (pExit : Slot) (a : Lists) : Lists :=
  a.mapSlots (a.adopted pExit) fun q => { q with parent := a.initproc }

theorem mapSlots_nil (a : Lists) (f : Proc → Proc) : a.mapSlots [] f = a := by
  simp [Lists.mapSlots]

theorem mapSlots_singleton (a : Lists) (p : Slot) (f : Proc → Proc) :
    a.mapSlots [p] f = a.modify p f := by
  simp only [Lists.mapSlots, Lists.modify, Lists.mk.injEq, true_and, and_true]
  funext q
  by_cases he : q = p
  · subst he
    simp
  · simp [he]

/-- The searches of `exit` reparent `adopted`, and wake init when they meet the first zombie. -/
theorem exitSearch_eq (a : Lists) (pExit : Slot) :
    a.exitSearch pExit =
      if ∃ z ∈ a.adopted pExit, (a.list .zombie).head? = some z then
        (a.adopt pExit).wakeup1 (.ofProc a.initproc)
      else a.adopt pExit := by
  unfold exitSearch searchFirst adopt adopted
  cases hz : (a.list .zombie).head? with
  | none =>
    have hnil : a.list .zombie = [] := by simpa using hz
    rw [if_neg (by simp), if_pos hnil]
    simp only [Lists.mapSlots, Lists.mk.injEq, true_and, and_true]
    funext p
    by_cases hp : (a.proc p).parent = some pExit
    · by_cases hs : p ∈ a.search <;> simp [children, hp, hs]
    · simp [children, hp]
  | some z =>
    have hne : a.list .zombie ≠ [] := by
      rintro he
      simp [he] at hz
    simp only [if_neg hne]
    cases hf : a.search.find? fun p => decide ((a.proc p).parent = some pExit) with
    | none =>
      have hc : a.children pExit = [] := by
        unfold children
        rw [filter_eq_nil_iff]
        exact find?_eq_none.1 hf
      simp [hc, mapSlots_nil]
    | some p =>
      have hc : (a.children pExit).take 1 = [p] := by
        unfold children
        rw [take_one, head?_filter, hf]
        rfl
      simp only [hc, mapSlots_singleton, mem_singleton, Option.some.injEq, exists_eq_left]
      by_cases he : p = z
      · simp [he]
      · rw [if_neg he, if_neg (Ne.symm he)]

theorem mem_adopted {pExit c : Slot} (h : c ∈ a.adopted pExit) :
    (a.proc c).parent = some pExit := by
  have hc : c ∈ a.children pExit := by
    unfold adopted at h
    split at h
    · exact h
    · exact mem_of_mem_take h
  simpa using (mem_filter.1 hc).2

theorem adopt_wf (hw : a.WF) (pExit : Slot) : (a.adopt pExit).WF :=
  hw.mapSlots (fun _ _ => rfl) fun p _ => hw.prio p

theorem exitSearch_resched (hw : a.WF) (pExit : Slot) :
    (a.adopt pExit).Resched (a.exitSearch pExit) := by
  rw [exitSearch_eq]
  split
  · exact wakeup1_resched _ (adopt_wf hw pExit) _
  · exact .refl _

/-- The table of `exit` before the caller becomes a zombie. -/
def exitBefore (proc : Slot) (a : Lists) : Lists :=
  (a.wakeup1 (.ofProc (a.proc proc).parent)).exitSearch proc

theorem exit_eq (a : Lists) (proc : Slot) :
    a.exit proc = ((a.exitBefore proc).requeue .running .zombie proc
      fun q => { q with state := .zombie }).sched proc := rfl

theorem exit_proc_of_ne (a : Lists) {proc : Slot} (h : p ≠ proc) :
    (a.exit proc).proc p = (a.exitBefore proc).proc p := by
  rw [exit_eq]
  unfold sched
  rw [modify_proc_of_ne _ _ h, requeue_proc, modify_proc_of_ne _ _ h]

theorem exit_proc_self (a : Lists) (proc : Slot) :
    ((a.exit proc).proc proc).state = .zombie ∧
      ((a.exit proc).proc proc).parent = ((a.exitBefore proc).proc proc).parent ∧
      ((a.exit proc).proc proc).chan = ((a.exitBefore proc).proc proc).chan := by
  rw [exit_eq]
  unfold sched
  rw [modify_proc_self, requeue_proc, modify_proc_self]
  exact ⟨rfl, rfl, rfl⟩

theorem reap_proc_of_ne (a : Lists) {q : Slot} (h : q ≠ p) : (a.reap p).proc q = a.proc q := by
  unfold reap
  rw [modify_proc_of_ne _ _ h, requeue_proc, modify_proc_of_ne _ _ h]

theorem reap_proc_self (a : Lists) (p : Slot) :
    (a.reap p).proc p = { a.proc p with
      state := .unused, pid := 0, parent := none, name := [], killed := false } := by
  unfold reap
  rw [modify_proc_self, requeue_proc, modify_proc_self]

/-- A turn of `wait` tidies up after its own `sleep`, reaps a child if one is a zombie, and then
returns or sleeps. -/
theorem waitTurn_cases (a : Lists) (p : Slot) (back : Bool) : ∃ b d : Lists,
    (b = a ∨ b = a.modify p fun q => { q with chan := .null }) ∧
    (d = b ∨ ∃ c ∈ b.list .zombie, d = b.reap c) ∧
    ((a.waitTurn back p).1 ≠ none ∧ (a.waitTurn back p).2 = d ∨
      (a.waitTurn back p).1 = none ∧ (a.waitTurn back p).2 = d.sleep p (.proc p)) := by
  have key : ∀ b : Lists, ∃ d : Lists, (d = b ∨ ∃ c ∈ b.list .zombie, d = b.reap c) ∧
      ((b.wait p).1 ≠ none ∧ (b.wait p).2 = d ∨
        (b.wait p).1 = none ∧ (b.wait p).2 = d.sleep p (.proc p)) := by
    intro b
    refine ⟨(b.waitPass p).2.2, ?_, ?_⟩
    · unfold waitPass
      split
      · next c hc => exact .inr ⟨c, mem_of_find?_eq_some hc, rfl⟩
      · exact .inl rfl
    · unfold wait
      dsimp only
      split
      · exact .inl ⟨nofun, rfl⟩
      · split
        · exact .inl ⟨nofun, rfl⟩
        · exact .inr ⟨rfl, rfl⟩
  cases back with
  | false =>
    obtain ⟨d, hd, hr⟩ := key a
    exact ⟨a, d, .inl rfl, hd, hr⟩
  | true =>
    obtain ⟨d, hd, hr⟩ := key (a.modify p fun q => { q with chan := .null })
    exact ⟨_, d, .inr rfl, hd, hr⟩

/-- The child that it reaps. -/
theorem zombie_of_turn {b : Lists} {c : Slot} (hw : a.WF) (hp : (a.proc p).state = .running)
    (hb : b = a ∨ b = a.modify p fun q => { q with chan := .null }) (hc : c ∈ b.list .zombie) :
    (a.proc c).state = .zombie ∧ p ≠ c := by
  have hz : (a.proc c).state = .zombie := by
    refine hw.state .zombie c ?_
    rcases hb with rfl | rfl
    · exact hc
    · exact hc
  refine ⟨hz, ?_⟩
  rintro rfl
  rw [hp] at hz
  cases hz

/-- But for the child that it reaps, a turn of `wait` only reschedules. -/
theorem waitTurn_resched (hw : a.WF) (hp : (a.proc p).state = .running) (back : Bool) :
    ∃ b d : Lists, a.Resched b ∧ (∀ q, (b.proc q).state = (a.proc q).state) ∧
      (d = b ∨ ∃ c, (a.proc c).state = .zombie ∧ d = b.reap c) ∧
      d.Resched (a.waitTurn back p).2 := by
  obtain ⟨b, d, hb, hd, hr⟩ := a.waitTurn_cases p back
  have hab : a.Resched b ∧ ∀ q, (b.proc q).state = (a.proc q).state := by
    rcases hb with rfl | rfl
    · exact ⟨.refl _, fun _ => rfl⟩
    · refine ⟨a.sleepReturn_resched hp, fun q => ?_⟩
      by_cases he : q = p
      · subst he
        rw [modify_proc_self]
      · rw [modify_proc_of_ne _ _ he]
  have hdb : (d.proc p).state = .running ∧
      (d = b ∨ ∃ c, (a.proc c).state = .zombie ∧ d = b.reap c) := by
    rcases hd with rfl | ⟨c, hc, rfl⟩
    · exact ⟨(hab.2 p).trans hp, .inl rfl⟩
    · obtain ⟨hz, hne⟩ := zombie_of_turn hw hp hb hc
      rw [b.reap_proc_of_ne hne, hab.2]
      exact ⟨hp, .inr ⟨c, hz, rfl⟩⟩
  refine ⟨b, d, hab.1, hab.2, hdb.2, ?_⟩
  rcases hr with ⟨-, hr⟩ | ⟨-, hr⟩
  · rw [hr]
    exact .refl d
  · rw [hr]
    exact d.sleep_resched hdb.1 (by rintro r ⟨⟩; rfl) (by simp)

end Lists

end Xv6.Procs
