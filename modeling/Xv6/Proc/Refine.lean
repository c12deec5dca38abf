import Xv6.Proc.Search

/-!
# The operations one level up: allocation, yield, sleep and wakeup

For every operation of `PTable` an operation of `Lists` that says what it does
to the lists and fields, and a theorem that the pointer version simulates it:
`Sim r a` says that `r` came back normally with a table that spells out the
well-formed `a`.

`wakeup1` follows `p->next` after `p` has become the last cell of a ready list,
so its loop ends with the first process it wakes: it wakes the first sleeper on
the channel and no other.
-/

namespace Xv6.Procs

open List

/-- `r` is a table that spells out the well-formed lists `a`. -/
def Sim (r : Except Panic PTable) (a : Lists) : Prop :=
  ∃ s, r = .ok s ∧ Rep s a ∧ a.WF

theorem Sim.bind {r : Except Panic PTable} {a b : Lists} {k : PTable → Except Panic PTable}
    (h : Sim r a) (hk : ∀ s, Rep s a → a.WF → Sim (k s) b) : Sim (r >>= k) b := by
  obtain ⟨s, rfl, hr, hw⟩ := h
  exact hk s hr hw

variable {p : Slot}

/-- `changeState` of a process on the list `src`, in the state it asserts. -/
theorem changeState_sim {s : PTable} {a : Lists} (h : Rep s a) (hw : a.WF) {src : ListId}
    (hp : p ∈ a.list src) (dst : ListId) (hdst : ∀ i, dst = .ready i → i ≤ maxPrio)
    (err : String) :
    Sim (s.changeState src dst p src.state dst.state err)
      (a.requeue src dst p fun q => { q with state := dst.state }) := by
  obtain ⟨s', hs, hr, -⟩ := changeState_rep h hp (hw.state src p hp) dst dst.state err
  exact ⟨s', hs, hr, hw.requeue hp rfl (hw.prio p) hdst⟩

theorem modify_sim {s : PTable} {a : Lists} (h : Rep s a) (hw : a.WF) {f : Proc → Proc}
    (hst : (f (a.proc p)).state = (a.proc p).state) (hpr : (f (a.proc p)).priority ≤ maxPrio) :
    Rep (s.modify p f) (a.modify p f) ∧ (a.modify p f).WF :=
  ⟨h.modify p f, hw.modify hst hpr⟩

namespace Lists

/-! ## What the operations do -/

def sched (proc : Slot) (a : Lists) : Lists :=
  a.modify proc fun q => { q with cpuTicksTotal := q.cpuTicksTotal + (a.ticks - q.cpuTicksIn) }

def yield (proc : Slot) (a : Lists) : Lists :=
  let a := a.modify proc (PTable.charge a.ticks)
  (a.requeue .running (.ready (a.proc proc).priority) proc
    fun q => { q with state := .runnable }).sched proc

def sleep (proc : Slot) (chan : Chan) (a : Lists) : Lists :=
  let a := a.modify proc fun q => { q with chan := chan }
  let a := a.modify proc (PTable.charge a.ticks)
  (a.requeue .running .sleep proc fun q => { q with state := .sleeping }).sched proc

/-- The first sleeper on `chan`. -/
def sleeper (chan : Chan) (a : Lists) : Option Slot :=
  (a.list .sleep).find? fun p => decide ((a.proc p).chan = chan)

def wakeup1 (chan : Chan) (a : Lists) : Lists :=
  match a.sleeper chan with
  | none => a
  | some p => a.requeue .sleep (.ready (a.proc p).priority) p fun q => { q with state := .runnable }

def allocproc (a : Lists) : Option Slot × Lists :=
  match (a.list .free).head? with
  | none => (none, a)
  | some p =>
    (some p, { (a.requeue .free .embryo p fun q => { q with state := .embryo }).modify p
      (fun q => { q with pid := a.nextpid }) with nextpid := a.nextpid + 1 })

/-- An embryo goes back to the free list. -/
def allocFail (p : Slot) (a : Lists) : Lists :=
  a.requeue .embryo .free p fun q => { q with state := .unused }

def allocInit (p : Slot) (a : Lists) : Lists :=
  a.modify p fun q => { q with
    startTicks := a.ticks
    cpuTicksTotal := 0
    cpuTicksIn := 0
    priority := 0
    budget := maxBudget }

def forkCopy (proc np : Slot) (a : Lists) : Lists :=
  a.modify np fun q => { q with
    parent := some proc
    uid := (a.proc proc).uid
    gid := (a.proc proc).gid
    name := (a.proc proc).name }

def forkReady (np : Slot) (a : Lists) : Lists :=
  a.requeue .embryo (.ready 0) np fun q => { q with state := .runnable }

end Lists

/-! ## The pointer versions do it -/

section
variable {s : PTable} {a : Lists}
variable {proc : Slot}

theorem sched_sim (h : Rep s a) (hw : a.WF) (hp : (a.proc proc).state ≠ .running) :
    Sim (s.sched proc) (a.sched proc) := by
  have hne : (s.proc proc).state ≠ .running := by rw [h.proc]; exact hp
  have hticks : s.ticks = a.ticks := congrArg Globals.ticks h.globals
  refine ⟨_, if_neg hne, ?_⟩
  unfold Lists.sched
  rw [hticks]
  exact modify_sim h hw rfl (hw.prio proc)

theorem charge_state (ticks : BitVec 32) (q : Proc) : (PTable.charge ticks q).state = q.state := by
  unfold PTable.charge
  dsimp only
  split <;> rfl

theorem charge_prio (ticks : BitVec 32) (q : Proc) (hq : q.priority ≤ maxPrio) :
    (PTable.charge ticks q).priority ≤ maxPrio := by
  unfold PTable.charge
  dsimp only
  split
  · dsimp only
    split <;> omega
  · exact hq

section
variable (h : Rep s a)
include h

theorem yield_sim (hw : a.WF) (hp : proc ∈ a.list .running) :
    Sim (s.yield proc) (a.yield proc) := by
  have hticks : s.ticks = a.ticks := congrArg Globals.ticks h.globals
  obtain ⟨h₁, w₁⟩ := modify_sim h hw (p := proc) (charge_state a.ticks _)
    (charge_prio a.ticks _ (hw.prio proc))
  unfold PTable.yield Lists.yield
  dsimp only
  rw [hticks, h₁.proc]
  refine (changeState_sim h₁ w₁ hp _ ?_ _).bind fun s' h₂ w₂ => ?_
  · rintro i ⟨⟩
    exact w₁.prio proc
  · refine sched_sim h₂ w₂ ?_
    rw [Lists.requeue_proc, Lists.modify_proc_self]
    simp [ListId.state]

theorem sleep_sim (hw : a.WF) (hp : proc ∈ a.list .running)
    (chan : Chan) : Sim (s.sleep proc chan) (a.sleep proc chan) := by
  have hticks : s.ticks = a.ticks := congrArg Globals.ticks h.globals
  obtain ⟨h₀, w₀⟩ := modify_sim h hw (p := proc) (f := fun q => { q with chan := chan }) rfl
    (hw.prio proc)
  obtain ⟨h₁, w₁⟩ := modify_sim h₀ w₀ (p := proc) (charge_state a.ticks _)
    (charge_prio a.ticks _ (w₀.prio proc))
  unfold PTable.sleep Lists.sleep
  dsimp only [PTable.modify_toGlobals, Lists.modify_toGlobals]
  rw [hticks]
  refine (changeState_sim h₁ w₁ hp .sleep (by simp) _).bind fun s' h₂ w₂ => ?_
  refine sched_sim h₂ w₂ ?_
  rw [Lists.requeue_proc, Lists.modify_proc_self]
  simp [ListId.state]

theorem wakeup1_sim (hw : a.WF) (chan : Chan) : Sim (s.wakeup1 chan) (a.wakeup1 chan) := by
  have hbody : ∀ p, (a.proc p).chan ≠ chan → (s.proc p).chan ≠ chan := by
    intro p hp
    rw [h.proc]
    exact hp
  unfold PTable.wakeup1 Lists.wakeup1 PTable.forList
  cases hf : a.sleeper chan with
  | none =>
    -- nobody sleeps on `chan`: the walk changes nothing
    have hno : ∀ p ∈ a.list .sleep, (a.proc p).chan ≠ chan := by
      intro p hp
      have := find?_eq_none.1 hf p hp
      simpa using this
    have hchain := h.chain .sleep
    rw [← append_nil (a.list .sleep)] at hchain
    rw [forEach_skip _ _ _ (a.list .sleep) [] NPROC (h.length_le _) _ s hchain
      (fun p hp => if_neg (hbody p (hno p hp)))]
    rw [head?_nil, forEach_none]
    exact ⟨s, rfl, h, hw⟩
  | some p =>
    obtain ⟨hp, l₁, l₂, hl, hno⟩ := find?_eq_some_iff_append.1 hf
    have hpc : (s.proc p).chan = chan := by
      rw [h.proc]
      simpa using hp
    have hmem : p ∈ a.list .sleep := by rw [hl]; simp
    have hchain := h.chain .sleep
    have hlen := h.length_le .sleep
    rw [hl] at hchain
    rw [hl, length_append, length_cons] at hlen
    rw [forEach_skip _ _ _ l₁ (p :: l₂) NPROC (by omega) _ s hchain
      (fun q hq => if_neg (hbody q (by simpa using hno q hq)))]
    obtain ⟨n, hn⟩ : ∃ n, NPROC - l₁.length = n + 1 := ⟨NPROC - l₁.length - 1, by omega⟩
    obtain ⟨s', hs, hr, hnext⟩ := changeState_rep h hmem (hw.state _ p hmem)
      (.ready (a.proc p).priority) .runnable "wakeup1()"
    have hw' : (a.requeue .sleep (.ready (a.proc p).priority) p
        fun q => { q with state := .runnable }).WF :=
      hw.requeue hmem rfl (hw.prio p) (by rintro i ⟨⟩; exact hw.prio p)
    rw [hn, head?_cons, forEach, if_pos hpc, h.proc]
    simp only [ListId.state] at hs
    simp only [hs, bind, Except.bind, hnext, forEach_none]
    exact ⟨s', rfl, hr, hw'⟩

theorem allocproc_sim (hw : a.WF) :
    ∃ s', s.allocproc = .ok (a.allocproc.1, s') ∧ Rep s' a.allocproc.2 ∧ a.allocproc.2.WF := by
  unfold PTable.allocproc Lists.allocproc
  rw [h.head_eq .free]
  cases hl : (a.list .free).head? with
  | none => exact ⟨s, rfl, h, hw⟩
  | some p =>
    obtain ⟨s', hs, hr, hw'⟩ := changeState_sim h hw (mem_of_head? hl) .embryo
      (by simp) "allocproc()"
    have hpid : s'.nextpid = a.nextpid := congrArg Globals.nextpid hr.globals
    simp only [ListId.state] at hs hr hw'
    refine ⟨_, by simp only [hs, bind, Except.bind]; rfl, ?_, ?_⟩
    · rw [hpid]
      have hm := hr.modify p fun q => { q with pid := a.nextpid }
      exact ⟨by simp only [hm.globals], hm.proc, hm.chain, hm.tail,
        ⟨hm.disjoint.nodup, hm.disjoint.unique⟩⟩
    · have hm := hw'.modify (p := p) (f := fun q => { q with pid := a.nextpid }) rfl (hw'.prio p)
      exact ⟨⟨hm.disjoint.nodup, hm.disjoint.unique⟩, hm.state, hm.total, hm.level, hm.prio⟩

theorem allocprocFail_sim (hw : a.WF) (hp : p ∈ a.list .embryo) :
    Sim (s.allocprocFail p) (a.allocFail p) :=
  changeState_sim h hw hp .free (by simp) _

theorem forkFail_sim (hw : a.WF) (hp : p ∈ a.list .embryo) : Sim (s.forkFail p) (a.allocFail p) :=
  changeState_sim h hw hp .free (by simp) _

theorem allocprocInit_sim (hw : a.WF) (p : Slot) :
    Rep (s.allocprocInit p) (a.allocInit p) ∧ (a.allocInit p).WF := by
  have hticks : s.ticks = a.ticks := congrArg Globals.ticks h.globals
  unfold PTable.allocprocInit Lists.allocInit
  rw [hticks]
  exact modify_sim h hw rfl (Nat.zero_le _)

theorem forkCopy_sim (hw : a.WF) (proc np : Slot) :
    Rep (s.forkCopy proc np) (a.forkCopy proc np) ∧ (a.forkCopy proc np).WF := by
  unfold PTable.forkCopy Lists.forkCopy
  rw [h.proc]
  exact modify_sim h hw rfl (hw.prio np)

theorem forkReady_sim (hw : a.WF) {np : Slot} (hp : np ∈ a.list .embryo) :
    Sim (s.forkReady np) (a.forkReady np) := by
  refine changeState_sim h hw hp (.ready 0) ?_ _
  rintro i ⟨⟩
  exact Nat.zero_le _

theorem sleepReturn_sim (hw : a.WF) (proc : Slot) :
    Rep (s.sleepReturn proc) (a.modify proc fun q => { q with chan := .null }) ∧
      (a.modify proc fun q => { q with chan := .null }).WF :=
  modify_sim h hw rfl (hw.prio proc)

end

end

end Xv6.Procs
