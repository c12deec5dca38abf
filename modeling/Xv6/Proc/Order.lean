import Xv6.Lib.Levels
import Xv6.Proc.Mlfq

/-!
# The order of dispatch

The ready lists, level after level, are one queue: the scheduler takes its first process, a
promotion moves the head of a level behind the level above and leaves the queue as it is, and
every other step puts processes in somewhere and takes none out.  `setpriority` moves the one
process it is applied to.  So a process that stands before another is dispatched before it.

The first process of the queue is dispatched when it is on the level of its priority.  Only
`ready[0]` can hold a process that is not (`reach_placedFrom_one`), and the scheduler panics when
it comes to its head.
-/

namespace Xv6.Procs

open Function List

variable {a : Lists} {p : Slot} {k : Kernel PTable}

/-- The first half of a pass of the scheduler: a promotion when it is due. -/
def PTable.promoteDue (s : PTable) : Except Panic PTable :=
  if s.ticks ≥ s.promoteAtTime then do
    let s ← s.promoteProcs
    .ok { s with promoteAtTime := s.ticks + ticksToPromote }
  else .ok s

/-- The head of the lowest-numbered ready list that is not empty. -/
def PTable.firstReady (s : PTable) : Option Slot :=
  (List.range (maxPrio + 1)).findSome? fun i => s.head (.ready i)

variable {q : Slot}

namespace Lists

def promoteDue (a : Lists) : Except Panic Lists :=
  if a.ticks ≥ a.promoteAtTime then do
    let a ← a.promoteProcs
    .ok { a with promoteAtTime := a.ticks + ticksToPromote }
  else .ok a

theorem scheduler_eq (a : Lists) :
    a.scheduler = a.promoteDue >>= forIn dispatch (List.range (maxPrio + 1)) := rfl

theorem queue_eq (a : Lists) : a.queue = joined (maxPrio + 1) fun i => a.list (.ready i) := rfl

theorem WF.queue_nodup (hw : a.WF) : a.queue.Nodup := by
  refine joined_nodup (fun i _ => hw.disjoint.nodup _) fun i j p hp hq => ?_
  simpa using hw.disjoint.unique _ _ p hp hq

theorem WF.le_of_mem (hw : a.WF) {i : Nat} (hp : p ∈ a.list (.ready i)) : i < maxPrio + 1 := by
  by_contra hi
  rw [hw.level i (by omega)] at hp
  cases hp

/-! ## Steps that take nothing out -/

/-- A process that comes from another list is put in somewhere. -/
theorem requeue_queue {b : Lists} (src : ListId) (hsrc : ∀ i, src ≠ .ready i) (dst : ListId)
    (p : Slot) (h : b.list = (a.requeue src dst p id).list) : a.queue.Sublist b.queue := by
  apply joined_sublist
  intro i _
  have hrem : (a.remove src p).list (.ready i) = a.list (.ready i) :=
    remove_list_of_ne a p (hsrc i).symm
  rw [h]
  by_cases hd : ListId.ready i = dst
  · subst hd
    simp only [requeue, add, update_self, modify_list, hrem]
    exact sublist_append_left _ _
  · rw [requeue_list_of_ne a p id (hsrc i).symm hd]

theorem sleep_queue (a : Lists) (p : Slot) (chan : Chan) :
    a.queue.Sublist (a.sleep p chan).queue :=
  requeue_queue .running nofun .sleep p rfl

theorem wakeup1_queue (a : Lists) (chan : Chan) : a.queue.Sublist (a.wakeup1 chan).queue := by
  unfold wakeup1
  split
  · exact .refl _
  · exact requeue_queue .sleep nofun _ _ rfl

theorem exit_queue (a : Lists) (p : Slot) : a.queue.Sublist (a.exit p).queue := by
  have hb : a.queue.Sublist (a.exitBefore p).queue := by
    refine (a.wakeup1_queue (.ofProc (a.proc p).parent)).trans ?_
    unfold exitBefore
    rw [exitSearch_eq]
    split
    · exact wakeup1_queue (adopt p _) _
    · exact .refl _
  exact hb.trans (requeue_queue .running nofun .zombie p rfl)

theorem waitTurn_queue (a : Lists) (back : Bool) (p : Slot) :
    a.queue.Sublist (a.waitTurn back p).2.queue := by
  obtain ⟨b, d, hb, hd, hr⟩ := a.waitTurn_cases p back
  have hqb : b.queue = a.queue := by
    rcases hb with rfl | rfl
    · rfl
    · rfl
  have hqd : a.queue.Sublist d.queue := by
    rcases hd with rfl | ⟨c, -, rfl⟩
    · rw [hqb]
    · rw [← hqb]
      exact requeue_queue .zombie nofun .free c rfl
  rcases hr with ⟨-, hr⟩ | ⟨-, hr⟩
  · rw [hr]
    exact hqd
  · rw [hr]
    exact hqd.trans (sleep_queue d p _)

theorem allocproc_queue (a : Lists) : a.queue.Sublist a.allocproc.2.queue := by
  rcases allocproc_cases a with ⟨-, he⟩ | ⟨np, -, he⟩
  · rw [he]
  · rw [he]
    exact requeue_queue .free nofun .embryo np rfl

theorem kill_queue (a : Lists) (pid : BitVec 32) : a.queue.Sublist (a.kill pid).2.queue := by
  unfold kill searchFirst
  dsimp only
  split
  · exact .refl _
  · split
    · exact .refl _
    · dsimp only
      split
      · exact requeue_queue .sleep nofun (.ready 0) _ rfl
      · exact .refl _

/-! ## setpriority, promotion and dispatch -/

/-- A move leaves the order of the other processes as it is. -/
theorem requeue_filter (hw : a.WF) (src dst : ListId) (p : Slot) (f : Proc → Proc) :
    (a.requeue src dst p f).queue.filter (· ≠ p) = a.queue.filter (· ≠ p) := by
  unfold queue
  rw [filter_flatMap, filter_flatMap]
  congr 1
  funext i
  have hrem : ((a.remove src p).list (.ready i)).filter (· ≠ p) =
      (a.list (.ready i)).filter (· ≠ p) := by
    by_cases hs : ListId.ready i = src
    · subst hs
      simp only [remove, update_self]
      rw [(hw.disjoint.nodup _).erase_eq_filter, filter_filter]
      congr 1
      funext q
      by_cases hq : q = p <;> simp [hq]
    · rw [remove_list_of_ne a p hs]
  by_cases hd : ListId.ready i = dst
  · subst hd
    simp only [requeue, add, update_self, modify_list, filter_append, hrem]
    simp
  · simp only [requeue, add, update_of_ne hd, modify_list, hrem]

/-- Two processes of which neither is the target of `setpriority` keep their order. -/
theorem setpriority_before (hw : a.WF) {pID : BitVec 32} {prio : Nat}
    (h : [p, q].Sublist a.queue) (hp : a.setprioTarget pID ≠ some p)
    (hq : a.setprioTarget pID ≠ some q) :
    Post (fun _ => True) (fun r => [p, q].Sublist r.2.queue) (a.setpriority pID prio) := by
  refine setpriority_post (G := fun b => [p, q].Sublist b.queue) hw pID prio (fun _ => h) ?_
    fun _ _ _ _ => h
  intro i r hr htarget _
  refine requeueAt_post (fun _ => ?_) fun _ => trivial
  have hrp : p ≠ r := by
    rintro rfl
    exact hp htarget
  have hrq : q ≠ r := by
    rintro rfl
    exact hq htarget
  have hfilter : [p, q].filter (· ≠ r) = [p, q] := by simp [hrp, hrq]
  rw [← hfilter]
  refine (h.filter (· ≠ r)).trans ?_
  rw [← requeue_filter hw]
  exact filter_sublist

/-- The head of a level goes behind the level above. -/
theorem promote_queue {i : Nat} (h0 : 0 < i) (hi : i ≤ maxPrio)
    (hp : (a.list (.ready i)).head? = some p) (f : Proc → Proc) :
    (a.requeue (.ready i) (.ready (i - 1)) p f).queue = a.queue := by
  obtain ⟨l, hl⟩ := head?_eq_some_iff.1 hp
  have hne : ListId.ready (i - 1) ≠ .ready i := by
    simp only [ne_eq, ListId.ready.injEq]
    omega
  refine joined_promote h0 (Nat.lt_succ_of_le hi) hl (requeue_list_head a hl hne.symm f) ?_ ?_
  · simp only [requeue, add, update_self, modify_list, remove_list_of_ne a p hne]
  · intro j hj hj'
    exact requeue_list_of_ne a p f (by simpa using hj) (by simpa using hj')

theorem promoteDue_post {I : Lists → Prop} {Q : Panic → Prop} (hw : a.WF) (ha : I a)
    (hprom : Post Q (fun b => b.WF ∧ I b) a.promoteProcs)
    (htime : ∀ b t, I b → I { b with promoteAtTime := t }) :
    Post Q (fun b => b.WF ∧ I b) a.promoteDue := by
  unfold promoteDue
  split
  · refine hprom.bind fun b hb => ⟨?_, htime b _ hb.2⟩
    exact ⟨⟨hb.1.disjoint.nodup, hb.1.disjoint.unique⟩, hb.1.state, hb.1.total, hb.1.level,
      hb.1.prio⟩
  · exact ⟨hw, ha⟩

theorem promoteDue_queue (hw : a.WF) :
    Post (fun _ => True) (fun b => b.WF ∧ b.queue = a.queue) a.promoteDue := by
  refine promoteDue_post (I := fun b => b.queue = a.queue) hw rfl ?_ fun _ _ h => h
  refine promoteProcs_post ?_ (fun b id _ _ hb => hb) hw rfl
  intro b p i h0 hi _ hb hp
  exact requeueAt_post (fun _ => (promote_queue h0 hi hp _).trans hb) fun _ => trivial

/-- The loop of the scheduler: it stops at the first level that is not empty. -/
theorem dispatch_cases (a : Lists) :
    (a.queue = [] ∧ forIn dispatch (List.range (maxPrio + 1)) a = .ok (none, a)) ∨
    ∃ i p, i < maxPrio + 1 ∧ (a.list (.ready i)).head? = some p ∧ a.queue.head? = some p ∧
      forIn dispatch (List.range (maxPrio + 1)) a = dispatch i a := by
  have hpick := forIn_pick dispatch (s := a) (fun i => (a.list (.ready i)).head?)
    (fun i hi => by rw [dispatch, hi])
    (fun i p a' hi he => by
      rw [dispatch, hi] at he
      obtain ⟨b, -, hb⟩ := map_ok he
      cases hb)
    (List.range (maxPrio + 1))
  rw [← head?_joined] at hpick
  refine hpick.imp (fun h => ⟨head?_eq_none_iff.1 h.1, h.2⟩) ?_
  rintro ⟨i, hi, p, hp, hfirst, hrun⟩
  exact ⟨i, p, mem_range.1 hi, hp, hfirst, hrun⟩

/-- A pass of the scheduler takes the first process of the queue. -/
theorem scheduler_queue (hw : a.WF) :
    Post (fun _ => True) (fun r => a.queue = r.1.toList ++ r.2.queue) a.scheduler := by
  rw [scheduler_eq]
  refine (promoteDue_queue hw).bind fun b hb => ?_
  rw [← hb.2]
  rcases dispatch_cases b with ⟨hq, hrun⟩ | ⟨i, p, hi, hp, hfirst, hrun⟩
  · rw [hrun]
    rfl
  · rw [hrun, dispatch, hp]
    refine Post.map (requeueAt_post (fun _ => ?_) fun _ => trivial)
    obtain ⟨l, hl⟩ := head?_eq_some_iff.1 hfirst
    have hnd := hb.1.queue_nodup
    rw [hl, nodup_cons] at hnd
    -- the queue without `p` is what was behind it
    have hp' : p ∉ (b.requeue (.ready i) .running p fun q => { q with state := .running }).queue := by
      intro hm
      obtain ⟨j, -, hj⟩ := mem_joined.1 hm
      rcases (hb.1.disjoint.mem_requeue (mem_of_head? hp) _ _ _ p).1 hj with ⟨-, he⟩ | ⟨hne, -⟩
      · cases he
      · exact hne rfl
    have hf := requeue_filter hb.1 (.ready i) .running p fun q => { q with state := .running }
    rw [hl, filter_eq_self.2 fun q hq => by simpa using ne_of_mem_of_not_mem hq hp',
      filter_cons_of_neg (by simp),
      filter_eq_self.2 fun q hq => by simpa using ne_of_mem_of_not_mem hq hnd.1] at hf
    rw [hl]
    exact congrArg (p :: ·) hf.symm

/-- The pass dispatches the first process exactly when that is on the level of its priority. -/
theorem scheduler_first {b : Lists} (hb : a.promoteDue = .ok b) (hw : b.WF) :
    (∃ c, a.scheduler = .ok (b.queue.head?, c) ∧
      ∀ p, b.queue.head? = some p → (c.proc p).state = .running) ↔
      ∀ i p, (b.list (.ready i)).head? = some p → b.queue.head? = some p →
        (b.proc p).priority = i := by
  rw [scheduler_eq, hb]
  change (∃ c, forIn dispatch (List.range (maxPrio + 1)) b = _ ∧ _) ↔ _
  rcases dispatch_cases b with ⟨hq, hrun⟩ | ⟨i, p, hi, hp, hfirst, hrun⟩
  · rw [hrun, hq]
    exact ⟨nofun, fun _ => ⟨b, rfl, nofun⟩⟩
  · rw [hrun, hfirst, dispatch, hp]
    dsimp only
    constructor
    · rintro ⟨c, hc, -⟩ j q hq he
      cases he
      have hij := hw.disjoint.unique _ _ p (mem_of_head? hq) (mem_of_head? hp)
      cases hij
      by_contra hne
      rw [requeueAt, if_pos hne] at hc
      cases hc
    · intro h
      rw [requeueAt, if_neg (not_not.2 (h i p hp rfl))]
      refine ⟨_, rfl, ?_⟩
      rintro q ⟨⟩
      rw [modify_proc_self, requeue_proc, modify_proc_self]

/-- The head of `ready[0]` stays there through a promotion. -/
theorem promoteDue_head (hw : a.WF) {z : Slot} (hz : (a.list (.ready 0)).head? = some z) :
    Post (fun _ => True) (fun b => b.WF ∧ (b.list (.ready 0)).head? = some z ∧
      (b.proc z).priority = (a.proc z).priority) a.promoteDue := by
  refine promoteDue_post (I := fun b => (b.list (.ready 0)).head? = some z ∧
    (b.proc z).priority = (a.proc z).priority) hw ⟨hz, rfl⟩ ?_ fun _ _ h => h
  refine promoteProcs_post ?_ ?_ hw ⟨hz, rfl⟩
  · intro b p i h0 _ hwb ⟨hb, hpr⟩ hp
    refine requeueAt_post (fun _ => ?_) fun _ => trivial
    have hne : z ≠ p := by
      rintro rfl
      have := hwb.disjoint.unique _ _ z (mem_of_head? hb) (mem_of_head? hp)
      simp only [ListId.ready.injEq] at this
      omega
    rw [requeue_proc, modify_proc_of_ne _ _ hne]
    refine ⟨?_, hpr⟩
    by_cases hi : i = 1
    · subst hi
      have hrem : (b.remove (.ready 1) p).list (.ready 0) = b.list (.ready 0) :=
        remove_list_of_ne b p (by simp)
      simp only [requeue, add, update_self, modify_list, hrem, head?_append, hb]
      rfl
    · rw [requeue_list_of_ne b p _ (by simp; omega) (by simp; omega)]
      exact hb
  · intro b id hid hwb ⟨hb, hpr⟩
    refine ⟨hb, ?_⟩
    have hne : z ∉ b.list id := by
      intro hm
      have := hwb.disjoint.unique _ _ z hm (mem_of_head? hb)
      rcases hid with rfl | rfl <;> cases this
    show (if z ∈ b.list id then promote (b.proc z) else b.proc z).priority = _
    rw [if_neg hne]
    exact hpr

/-- Where only `ready[0]` can hold a process of another priority, the pass goes through exactly
when its head has priority 0. -/
theorem scheduler_first_iff (hw : a.WF) (h : a.PlacedFrom 1) :
    ∃ b, a.promoteDue = .ok b ∧ b.WF ∧ ((∃ c, a.scheduler = .ok (b.queue.head?, c) ∧
      ∀ p, b.queue.head? = some p → (c.proc p).state = .running) ↔
        ∀ p, (a.list (.ready 0)).head? = some p → (a.proc p).priority = 0) := by
  have hdue : ∀ n ≤ 1, a.PlacedFrom n → Post (fun _ => False)
      (fun b => b.WF ∧ b.PlacedFrom n) a.promoteDue := fun n hn hp =>
    promoteDue_post hw hp (hp.promoteProcs hn hw) fun _ _ h => h
  have h1 := hdue 1 (Nat.le_refl 1) h
  cases hb : a.promoteDue with
  | error e => exact (h1.of_error hb).elim
  | ok b =>
    obtain ⟨hwb, hpb⟩ := h1.of_ok hb
    refine ⟨b, rfl, hwb, (scheduler_first hb hwb).trans ⟨fun hall z hz => ?_, fun hz i p hp _ => ?_⟩⟩
    · obtain ⟨-, hz', hpr⟩ := (promoteDue_head hw hz).of_ok hb
      rw [← hpr]
      refine hall 0 z hz' ?_
      rw [queue_eq, head?_joined, range_succ_eq_map, findSome?_cons, hz']
    · by_cases hi : i = 0
      · subst hi
        cases hl : (a.list (.ready 0)).head? with
        | none =>
          -- what is on `ready[0]` now was on `ready[1]`
          have h0 : a.PlacedFrom 0 := by
            intro j q _ hq
            by_cases hj : j = 0
            · subst hj
              rw [head?_eq_none_iff.1 hl] at hq
              cases hq
            · exact h j q (by omega) hq
          exact ((hdue 0 (Nat.zero_le 1) h0).of_ok hb).2 0 p (Nat.le_refl 0) (mem_of_head? hp)
        | some z =>
          obtain ⟨-, hz', hpr⟩ := (promoteDue_head hw hl).of_ok hb
          obtain rfl : z = p := Option.some.inj (hz'.symm.trans hp)
          rw [hpr]
          exact hz z hl
      · exact hpb i p (by omega) (mem_of_head? hp)

end Lists

/-! ## Over runs -/

/-- The process that a pass of the scheduler would switch to. -/
def Kernel.dispatched (k : Kernel PTable) : Option Slot :=
  match k.tab.scheduler with
  | .ok r => r.1
  | .error _ => none

/-- The pass ends with the head of the first ready list that is not empty, after any due
promotion, as the running process. -/
def Kernel.DispatchesFirst (k : Kernel PTable) : Prop :=
  ∃ s s', k.tab.promoteDue = .ok s ∧ k.tab.scheduler = .ok (s.firstReady, s') ∧
    ∀ p, s.firstReady = some p → (s'.proc p).state = .running

/-- A step that does not dispatch `p` and does not apply `setpriority` to `p` or `q`. -/
def undisturbed (p q : Slot) (k : Kernel PTable) : Action → Prop
  | .scheduler => k.dispatched ≠ some p
  | .setpriority _ pID _ =>
    k.tab.lists.setprioTarget pID ≠ some p ∧ k.tab.lists.setprioTarget pID ≠ some q
  | _ => True

theorem promoteDue_simP {s : PTable} (h : Rep s a) (hw : a.WF) :
    SimP s.promoteDue a.promoteDue := by
  unfold PTable.promoteDue Lists.promoteDue
  have hticks : s.ticks = a.ticks := congrArg Globals.ticks h.globals
  have hprom : s.promoteAtTime = a.promoteAtTime := congrArg Globals.promoteAtTime h.globals
  rw [hticks, hprom]
  split
  · refine (promoteProcs_simP h hw).bind fun s₁ a₁ h₁ w₁ => ⟨_, rfl, ?_, ?_⟩
    · refine ⟨?_, h₁.proc, h₁.chain, h₁.tail, ⟨h₁.disjoint.nodup, h₁.disjoint.unique⟩⟩
      simp only [h₁.globals]
    · exact ⟨⟨w₁.disjoint.nodup, w₁.disjoint.unique⟩, w₁.state, w₁.total, w₁.level, w₁.prio⟩
  · exact ⟨s, rfl, h, hw⟩

theorem Rep.firstReady_eq {s : PTable} (h : Rep s a) : s.firstReady = a.queue.head? := by
  unfold PTable.firstReady
  rw [Lists.queue_eq, head?_joined]
  congr 1
  funext i
  exact h.head_eq _

theorem KRep.dispatchesFirst_iff (hk : KRep k k.lists) (h : k.lists.tab.PlacedFrom 1) :
    k.DispatchesFirst ↔ ∀ p, k.tab.head (.ready 0) = some p → (k.tab.proc p).priority = 0 := by
  obtain ⟨b, hb, hwb, hiff⟩ := Lists.scheduler_first_iff hk.wf h
  have hdue := promoteDue_simP hk.rep hk.wf
  rw [hb] at hdue
  obtain ⟨s, hs, hrep, -⟩ := hdue
  have hsim := scheduler_simE hk.rep hk.wf
  rw [hk.rep.head_eq, hk.rep.proc, ← hiff]
  unfold Kernel.DispatchesFirst
  constructor
  · rintro ⟨s₁, s', hs₁, hrun, hst⟩
    cases hs.symm.trans hs₁
    rw [hrep.firstReady_eq] at hrun hst
    rw [hrun] at hsim
    cases hl : k.lists.tab.scheduler with
    | error e =>
      rw [hl] at hsim
      cases hsim
    | ok r =>
      obtain ⟨x, c⟩ := r
      rw [hl] at hsim
      obtain ⟨s₂, he, hr, -⟩ := hsim
      cases he
      exact ⟨c, rfl, fun p hp => by rw [← hr.proc]; exact hst p hp⟩
  · rintro ⟨c, hc, hst⟩
    rw [hc] at hsim
    obtain ⟨s', he, hr, -⟩ := hsim
    refine ⟨s, s', hs, by rw [hrep.firstReady_eq]; exact he, fun p hp => ?_⟩
    rw [hr.proc]
    exact hst p (hrep.firstReady_eq ▸ hp)

theorem KRep.dispatched_iff (hk : KRep k k.lists) :
    k.dispatched = some p ↔ ∃ c, k.lists.tab.scheduler = .ok (some p, c) := by
  have hsim := scheduler_simE hk.rep hk.wf
  unfold Kernel.dispatched
  cases hl : k.lists.tab.scheduler with
  | error e =>
    rw [hl] at hsim
    rw [show k.tab.scheduler = .error e from hsim]
    exact ⟨nofun, nofun⟩
  | ok r =>
    obtain ⟨x, c⟩ := r
    rw [hl] at hsim
    obtain ⟨s, he, -⟩ := hsim
    rw [he]
    simp

/-- The order of two processes in the queue, over one step. -/
theorem before_step {k' : Kernel PTable} (hk : KRep k k.lists) (hf : k.lists.Forks)
    (h : [p, q].Sublist k.lists.tab.queue) {act : Action} (hok : undisturbed p q k act)
    (hstep : kernel.step k act k') : [p, q].Sublist k'.lists.tab.queue := by
  obtain ⟨-, he, -⟩ := step_krep hk hf hstep
  generalize hl : k'.lists = l at he ⊢
  have hw := hk.wf
  cases act with
  | tick => cases he; exact h
  | scheduler =>
    obtain ⟨⟨x, c⟩, hr, rfl⟩ := map_ok he
    have hq := (Lists.scheduler_queue hw).of_ok hr
    rw [hq] at h
    cases x with
    | none => exact h
    | some x =>
      have hx : p ≠ x := by
        rintro rfl
        exact hok (hk.dispatched_iff.2 ⟨c, hr⟩)
      cases h with
      | cons _ h => exact h
      | cons_cons _ _ => exact absurd rfl hx
  | wakeup chan => cases he; exact h.trans (Lists.wakeup1_queue _ _)
  | yield p => cases he; exact h.trans (Lists.requeue_queue .running nofun _ p rfl)
  | sleep p chan => cases he; exact h.trans (Lists.sleep_queue _ _ _)
  | sleepReturn p => cases he; exact h
  | trapKill p => cases he; exact h
  | forkAlloc p =>
    rw [Kernel.execL_forkAlloc he]
    exact h.trans (Lists.allocproc_queue _)
  | kallocFail p np | copyuvmFail p np =>
    cases he
    exact h.trans (Lists.requeue_queue .embryo nofun .free np rfl)
  | kallocOk p np => cases he; exact h
  | copyuvmOk p np => cases he; exact h
  | forkReady p np => cases he; exact h.trans (Lists.requeue_queue .embryo nofun (.ready 0) np rfl)
  | exit p =>
    obtain ⟨-, rfl⟩ := Kernel.execL_exit he
    exact h.trans (Lists.exit_queue _ _)
  | wait p => cases he; exact h.trans (Lists.waitTurn_queue _ _ _)
  | kill p pid => cases he; exact h.trans (Lists.kill_queue _ _)
  | setpriority p pID prio =>
    obtain ⟨r, hr, rfl⟩ := map_ok he
    exact (Lists.setpriority_before hw h hok.1 hok.2).of_ok hr

/-- The order of two processes in the queue, over a run. -/
theorem before_run {k' : Kernel PTable} (hk : kernel.Reach k) (h : [p, q].Sublist k.lists.tab.queue)
    (hr : ((kernel.startAt k).restrict (undisturbed p q)).Reach k') :
    [p, q].Sublist k'.lists.tab.queue := by
  induction hr with
  | init he => exact he ▸ h
  | step hr hs ih =>
    obtain ⟨hrep, hf⟩ := reach_krep (hk.of_startAt hr.of_restrict)
    exact before_step hrep hf ih hs.1 hs.2

/-- The one behind is not dispatched. -/
theorem before_dispatched (hk : KRep k k.lists) (h : [p, q].Sublist k.lists.tab.queue) :
    k.dispatched ≠ some q := by
  intro hd
  obtain ⟨c, hc⟩ := hk.dispatched_iff.1 hd
  have hq : k.lists.tab.queue = q :: c.queue := (Lists.scheduler_queue hk.wf).of_ok hc
  have hnd := hk.wf.queue_nodup
  have hpq := hnd.sublist h
  rw [hq] at h hnd
  cases h with
  | cons _ h => exact (nodup_cons.1 hnd).1 (h.subset (by simp))
  | cons_cons _ _ => simp at hpq

/-- A pass of the scheduler from a reachable state dispatches the head of the first ready list
that is not empty, after any due promotion, exactly when the head of `ready[0]`, if there is one,
has priority 0; so it always does in a run whose kills meet `killOk`.  And of two processes on one
ready list the one ahead is dispatched first, in every run without a `setpriority` on one of
them. -/
theorem dispatch_order (k : Kernel PTable) :
    (kernel.Reach k → (k.DispatchesFirst ↔
      ∀ p, k.tab.head (.ready 0) = some p → (k.tab.proc p).priority = 0)) ∧
    ((kernel.restrict killOk).Reach k → k.DispatchesFirst) ∧
    (kernel.Reach k → ∀ i p q, [p, q].Sublist (k.tab.slots (.ready i)) →
      ∀ k', ((kernel.startAt k).restrict (undisturbed p q)).Reach k' →
        k'.dispatched ≠ some q ∧
        ∃ i j, p ∈ k'.tab.slots (.ready i) ∧ q ∈ k'.tab.slots (.ready j)) := by
  refine ⟨fun hk => ?_, fun hk => ?_, fun hk i p q hpq k' hk' => ?_⟩
  · exact (reach_krep hk).1.dispatchesFirst_iff (reach_placedFrom_one hk)
  · obtain ⟨hr, -, hp⟩ := reach_placed hk
    refine (hr.dispatchesFirst_iff fun i p _ => hp i p).2 fun p hh => ?_
    rw [hr.rep.head_eq] at hh
    exact hp 0 p (mem_of_head? hh)
  · have hr := (reach_krep hk).1
    have hi := hr.wf.le_of_mem (hpq.subset mem_cons_self)
    have hbefore : [p, q].Sublist k.lists.tab.queue :=
      hpq.trans (level_sublist (f := fun i => k.lists.tab.list (.ready i)) hi)
    have hend := before_run hk hbefore hk'
    have hmem : ∀ x ∈ [p, q], ∃ i, x ∈ k'.tab.slots (.ready i) := by
      intro x hx
      obtain ⟨i, -, hi⟩ := mem_joined.1 (hend.subset hx)
      exact ⟨i, hi⟩
    obtain ⟨i, hi⟩ := hmem p (by simp)
    obtain ⟨j, hj⟩ := hmem q (by simp)
    exact ⟨before_dispatched (reach_krep (hk.of_startAt hk'.of_restrict)).1 hend, i, j, hi, hj⟩

/-- Init forks twice: the elder child goes first. -/
theorem dispatch_order_children : ∃ k, (kernel.restrict killOk).Reach k ∧
    k.tab.slots (.ready 0) = [1, 2] ∧ k.DispatchesFirst ∧ k.dispatched ≠ some 2 := by
  obtain ⟨k, hk, hP⟩ := Kernel.exists_reach_restrict killOk
    [.scheduler, .forkAlloc 0, .kallocOk 0 1, .copyuvmOk 0 1, .forkReady 0 1,
      .forkAlloc 0, .kallocOk 0 2, .copyuvmOk 0 2, .forkReady 0 2]
    (P := fun k => decide (k.tab.slots (.ready 0) = [1, 2])) (by decide +kernel)
  have hP := of_decide_eq_true hP
  refine ⟨k, hk, hP, (dispatch_order k).2.1 hk, ?_⟩
  exact ((dispatch_order k).2.2 hk.of_restrict 0 1 2 (by rw [hP]) k (.init rfl)).1

/-- Init, at priority 3, is killed in its `wait` and woken to the head of `ready[0]`: the next
pass of the scheduler panics instead of dispatching it. -/
theorem head_not_dispatched : ∃ k, kernel.Reach k ∧ k.tab.head (.ready 0) = some 0 ∧
    k.exec .scheduler = .error .assertPrio ∧ ¬ k.DispatchesFirst := by
  obtain ⟨k, hk, hP⟩ := Kernel.exists_reach
    [.scheduler, .forkAlloc 0, .kallocOk 0 1, .copyuvmOk 0 1, .forkReady 0 1,
      .setpriority 0 1 3, .wait 0, .scheduler, .kill 1 1, .yield 1]
    (P := fun k => decide (k.tab.head (.ready 0) = some 0 ∧
      k.panics .scheduler .assertPrio = true)) (by decide +kernel)
  obtain ⟨hh, hpan⟩ := of_decide_eq_true hP
  have he := (k.panics_iff _ _).1 hpan
  refine ⟨k, hk, hh, he, ?_⟩
  rintro ⟨s, s', -, hrun, -⟩
  rw [Kernel.exec, hrun] at he
  cases he

end Xv6.Procs
