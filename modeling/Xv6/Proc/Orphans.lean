import Xv6.Proc.Scan

/-!
# The children of an exiting process

The list version of `exit` returns from its search as soon as it has passed one
child to init while the zombie list is not empty, and wakes init only when that
child heads the zombie list.  `step_exitDone_iff` says for which tables it still
does what the table-scan version does.  In runs whose exits are all of that
kind every parent can still run, and `wait` hands out only children that the
caller forked or that init adopted; `Ghost` records who forked whom.
-/

namespace Xv6.Procs

open List

variable {a : Lists} {p : Slot} {act : Action}

/-! ## What the two versions do to the slots -/

/-- The fields of the caller once `exit` has jumped into the scheduler. -/
def Proc.ended (ticks : BitVec 32) (q : Proc) : Proc :=
  { q with state := .zombie, cpuTicksTotal := q.cpuTicksTotal + (ticks - q.cpuTicksIn) }

theorem ended_parent (f : Slot → Proc) (ticks : BitVec 32) (proc q : Slot) :
    (if q = proc then (f proc).ended ticks else f q).parent = (f q).parent := by
  split
  · next he =>
    rw [he]
    rfl
  · rfl

/-- The table of the scan version before the caller becomes a zombie. -/
def PTable.exitScanBefore (proc : Slot) (s : PTable) : PTable :=
  let s := s.wakeup1Scan (.ofProc (s.proc proc).parent)
  (List.finRange NPROC).foldl (fun s p => s.exitScanBody proc p) s

theorem PTable.passed_toGlobals (s : PTable) (pExit : Slot) (l : List Slot) :
    (s.passed pExit l).toGlobals = s.toGlobals := rfl

theorem exitScanBefore_toGlobals (s : PTable) (proc : Slot) :
    (s.exitScanBefore proc).toGlobals = s.toGlobals := by
  unfold PTable.exitScanBefore
  dsimp only
  rw [exitScan_foldl _ (nodup_finRange NPROC)]
  split <;> simp only [wakeup1Scan_toGlobals, PTable.passed_toGlobals]

theorem exitScanBefore_proc (s : PTable) (proc q : Slot) :
    (s.exitScanBefore proc).proc q =
      if s.ZombieIn proc (List.finRange NPROC) then
        (((s.proc q).wake (.ofProc (s.proc proc).parent)).passTo proc s.initproc).wake
          (.ofProc s.initproc)
      else ((s.proc q).wake (.ofProc (s.proc proc).parent)).passTo proc s.initproc := by
  have hz : (s.wakeup1Scan (.ofProc (s.proc proc).parent)).ZombieIn proc (List.finRange NPROC) ↔
      s.ZombieIn proc (List.finRange NPROC) := by
    unfold PTable.ZombieIn
    simp only [wakeup1Scan_proc, Proc.wake_parent, Proc.wake_zombie]
  unfold PTable.exitScanBefore
  dsimp only
  rw [exitScan_foldl _ (nodup_finRange NPROC)]
  by_cases h : s.ZombieIn proc (List.finRange NPROC)
  · rw [if_pos (hz.2 h), if_pos h, wakeup1Scan_proc, PTable.passed_proc, wakeup1Scan_proc,
      wakeup1Scan_toGlobals, if_pos (mem_finRange q)]
  · rw [if_neg fun h' => h (hz.1 h'), if_neg h, PTable.passed_proc, wakeup1Scan_proc,
      wakeup1Scan_toGlobals, if_pos (mem_finRange q)]

theorem exitScan_eq (s : PTable) {proc : Slot} (hi : s.initproc ≠ some proc) :
    ∃ t, s.exitScan proc = .ok t ∧ ∀ q, t.proc q =
      if q = proc then ((s.exitScanBefore proc).proc proc).ended s.ticks
      else (s.exitScanBefore proc).proc q := by
  have hticks : (s.exitScanBefore proc).ticks = s.ticks :=
    congrArg Globals.ticks (exitScanBefore_toGlobals s proc)
  unfold PTable.exitScan
  rw [if_neg hi]
  change ∃ t, ((s.exitScanBefore proc).modify proc fun q => { q with state := .zombie }).sched proc =
    .ok t ∧ _
  have hne : (((s.exitScanBefore proc).modify proc
      fun q => { q with state := .zombie }).proc proc).state ≠ .running := by
    simp [PTable.modify]
  refine ⟨_, if_neg hne, fun q => ?_⟩
  by_cases he : q = proc
  · subst he
    simp only [PTable.modify, Function.update_self, if_true, Proc.ended, hticks]
  · simp only [PTable.modify, Function.update_of_ne he, if_neg he]

variable {c : Slot} {a' : Lists}

namespace Lists

theorem exitBefore_toGlobals (a : Lists) (proc : Slot) :
    (a.exitBefore proc).toGlobals = a.toGlobals := by
  have hw : ∀ (b : Lists) chan, (b.wakeup1 chan).toGlobals = b.toGlobals := by
    intro b chan
    unfold wakeup1
    split <;> rfl
  unfold exitBefore
  rw [exitSearch_eq]
  split
  · rw [hw]
    exact hw a _
  · exact hw a _

theorem exit_proc (a : Lists) (proc q : Slot) :
    (a.exit proc).proc q = if q = proc then ((a.exitBefore proc).proc proc).ended a.ticks
      else (a.exitBefore proc).proc q := by
  have hticks : (a.exitBefore proc).ticks = a.ticks :=
    congrArg Globals.ticks (exitBefore_toGlobals a proc)
  by_cases he : q = proc
  · subst he
    rw [if_pos rfl, exit_eq]
    unfold sched
    rw [modify_proc_self, requeue_proc, modify_proc_self, ← hticks]
    rfl
  · rw [if_neg he, exit_proc_of_ne a he]

/-- Every slot waits on its own channel, so at most one sleeper waits on a slot. -/
def Own (a : Lists) : Prop := ∀ p, (a.proc p).OwnChan p

theorem Own.waits_unique (h : a.Own) {x : Option Slot} {q : Slot}
    (hp : (a.proc p).Waits (.ofProc x)) (hq : (a.proc q).Waits (.ofProc x)) : p = q := by
  cases x with
  | none => exact absurd hp.2 ((h p).2 hp.1)
  | some r => rw [← (h p).1 r hp.2, ← (h q).1 r hq.2]

theorem Own.wakeup1_proc (h : a.Own) (hw : a.WF) (x : Option Slot) (q : Slot) :
    (a.wakeup1 (.ofProc x)).proc q = (a.proc q).wake (.ofProc x) := by
  unfold wakeup1
  cases hf : a.sleeper (.ofProc x) with
  | none => exact (Proc.wake_of_not (sleeper_none hw hf q)).symm
  | some p =>
    have hpw := (sleeper_some hw hf).2
    dsimp only
    rw [requeue_proc]
    by_cases he : q = p
    · subst he
      rw [modify_proc_self, Proc.wake_of_waits hpw]
    · rw [modify_proc_of_ne _ _ he, Proc.wake_of_not fun hq => he (h.waits_unique hq hpw)]

theorem Own.resched (h : a.Own) (hr : a.Resched a') : a'.Own :=
  fun p => (hr.proc p).chan (h p)

theorem Own.adopt (h : a.Own) (pExit : Slot) : (a.adopt pExit).Own := by
  intro p
  unfold Lists.adopt Lists.mapSlots
  dsimp only
  split
  · exact h p
  · exact h p

/-- The searches meet the first zombie. -/
def MeetsZombie (pExit : Slot) (a : Lists) : Prop :=
  ∃ z ∈ a.adopted pExit, (a.list .zombie).head? = some z

instance (pExit : Slot) (a : Lists) : Decidable (a.MeetsZombie pExit) :=
  inferInstanceAs (Decidable (∃ z ∈ a.adopted pExit, (a.list .zombie).head? = some z))

local instance : LawfulBEq Slot := inferInstance

/-- A slot once the parent of `proc` has been woken and the children passed on. -/
def handed (proc : Slot) (a : Lists) (q : Slot) : Proc :=
  if q ∈ (a.wakeup1 (.ofProc (a.proc proc).parent)).adopted proc then
    { (a.proc q).wake (.ofProc (a.proc proc).parent) with parent := a.initproc }
  else (a.proc q).wake (.ofProc (a.proc proc).parent)

theorem exitBefore_proc (ho : a.Own) (hw : a.WF) (proc q : Slot) :
    (a.exitBefore proc).proc q =
      if (a.wakeup1 (.ofProc (a.proc proc).parent)).MeetsZombie proc then
        (a.handed proc q).wake (.ofProc a.initproc)
      else a.handed proc q := by
  have hr := wakeup1_resched a hw (.ofProc (a.proc proc).parent)
  have ho₁ := ho.resched hr
  have hw₁ := wakeup1_wf hw (.ofProc (a.proc proc).parent)
  have had : ((a.wakeup1 (.ofProc (a.proc proc).parent)).adopt proc).proc q = a.handed proc q := by
    unfold adopt mapSlots handed
    dsimp only
    rw [ho.wakeup1_proc hw, hr.initproc]
  unfold exitBefore
  rw [exitSearch_eq]
  by_cases hm : (a.wakeup1 (.ofProc (a.proc proc).parent)).MeetsZombie proc
  · rw [if_pos hm]
    unfold MeetsZombie at hm
    rw [if_pos hm, hr.initproc, (ho₁.adopt proc).wakeup1_proc (adopt_wf hw₁ proc), had]
  · rw [if_neg hm]
    unfold MeetsZombie at hm
    rw [if_neg hm, had]

/-- The children, when free slots have no parent. -/
theorem mem_children (hw : a.WF)
    (hfree : ∀ p, (a.proc p).state = .unused → (a.proc p).parent = none) {pExit : Slot} :
    c ∈ a.children pExit ↔ (a.proc c).parent = some pExit := by
  unfold children
  rw [mem_filter, hw.mem_search]
  simp only [decide_eq_true_eq, and_iff_right_iff_imp]
  intro hc hun
  rw [hfree c hun] at hc
  cases hc

end Lists

/-! ## When the list version does what the scan does -/

/-- Init sleeps inside `wait`. -/
def PTable.InitWaits (s : PTable) : Prop :=
  ∃ i, s.initproc = some i ∧ (s.proc i).Waits (.proc i)

instance (s : PTable) : Decidable s.InitWaits :=
  inferInstanceAs (Decidable (∃ i, s.initproc = some i ∧ (s.proc i).Waits (.proc i)))

/-- What an `exit` of `pExit` has to do, from `s` to `s'`: pass every child to init, wake an init
that is inside `wait` when a child is a zombie; and nothing else than the table-scan version. -/
structure PTable.ExitDone (pExit : Slot) (s s' : PTable) : Prop where
  parent : ∀ c, (s.proc c).parent = some pExit → (s'.proc c).parent = s.initproc
  init : ∀ i c, s.initproc = some i → (s.proc c).parent = some pExit → (s.proc c).state = .zombie →
    (s.proc i).Waits (.proc i) → (s'.proc i).state = .runnable
  scan : ∃ t, s.exitScan pExit = .ok t ∧ s'.proc = t.proc

/-- There is no zombie; or `pExit` has at most one child, and if that is a zombie then it heads
the zombie list, or init does not sleep in `wait`, or init is the parent of `pExit`. -/
def PTable.ExitOk (pExit : Slot) (s : PTable) : Prop :=
  s.slots .zombie = [] ∨
    ((∀ c d, (s.proc c).parent = some pExit → (s.proc d).parent = some pExit → c = d) ∧
      ∀ c, (s.proc c).parent = some pExit → (s.proc c).state = .zombie →
        s.head .zombie = some c ∨ ¬ s.InitWaits ∨ (s.proc pExit).parent = s.initproc)

instance (pExit : Slot) (s : PTable) : Decidable (s.ExitOk pExit) :=
  inferInstanceAs (Decidable (_ ∨ _))

section
variable {s s' : PTable} {pExit : Slot}

theorem wakeup1_zombies (a : Lists) (chan : Chan) :
    (a.wakeup1 chan).list .zombie = a.list .zombie :=
  wakeup1_list a chan (by simp) (by simp)

theorem mem_adopted_parent (ho : a.Own) (hw : a.WF) {x : Option Slot}
    (h : c ∈ (a.wakeup1 (.ofProc x)).adopted pExit) : (a.proc c).parent = some pExit := by
  have := Lists.mem_adopted h
  rwa [ho.wakeup1_proc hw, Proc.wake_parent] at this

theorem passTo_waits {chan : Chan} {i : Option Slot} {q : Proc} :
    (q.passTo pExit i).Waits chan ↔ q.Waits chan := by
  unfold Proc.passTo Proc.Waits
  split <;> rfl

theorem waits_of_wake {chan chan' : Chan} {q : Proc} (h : (q.wake chan').Waits chan) :
    q.Waits chan := by
  by_cases hq : q.Waits chan'
  · rw [Proc.wake_of_waits hq] at h
    cases h.1
  · rwa [Proc.wake_of_not hq] at h

theorem wake_runnable {chan : Chan} {q : Proc} (h : q.Waits chan) (chan' : Chan) :
    ((q.wake chan').wake chan).state = .runnable := by
  by_cases hq : q.Waits chan'
  · have hst : (q.wake chan').state = .runnable := by rw [Proc.wake_of_waits hq]
    have hno : ¬ (q.wake chan').Waits chan := by
      intro hw
      rw [hw.1] at hst
      cases hst
    rw [Proc.wake_of_not hno, hst]
  · rw [Proc.wake_of_not hq, Proc.wake_of_waits h]

section
variable (hw : s.lists.WF) (ho : s.lists.Own)
  (hfree : ∀ p, (s.proc p).state = .unused → (s.proc p).parent = none) (h : s.ExitOk pExit)
include hw ho hfree h

/-- Under `ExitOk` every child is passed on. -/
theorem ExitOk.mem_adopted (x : Option Slot) (hc : (s.proc c).parent = some pExit) :
    c ∈ (s.lists.wakeup1 (.ofProc x)).adopted pExit := by
  have hw₁ := wakeup1_wf hw (.ofProc x)
  have hkept := (s.lists.wakeup1_resched hw (.ofProc x)).kept
  have hpar : ∀ c, ((s.lists.wakeup1 (.ofProc x)).proc c).parent = (s.proc c).parent := by
    intro c
    rw [ho.wakeup1_proc hw, Proc.wake_parent]
    rfl
  have hmem : ∀ c, c ∈ (s.lists.wakeup1 (.ofProc x)).children pExit ↔
      (s.proc c).parent = some pExit := by
    intro c
    rw [Lists.mem_children hw₁ (hkept.free hfree), hpar]
  unfold Lists.adopted
  rw [wakeup1_zombies]
  split
  · exact (hmem c).2 hc
  · next hz =>
    obtain ⟨huniq, -⟩ := h.resolve_left hz
    have hcm := (hmem c).2 hc
    cases hl : (s.lists.wakeup1 (.ofProc x)).children pExit with
    | nil =>
      rw [hl] at hcm
      cases hcm
    | cons d l =>
      have hd : (s.proc d).parent = some pExit := by
        rw [← hmem, hl]
        exact mem_cons_self
      rw [huniq c d hc hd]
      exact mem_cons_self

theorem ExitOk.handed_eq (q : Slot) : s.lists.handed pExit q =
      ((s.proc q).wake (.ofProc (s.proc pExit).parent)).passTo pExit s.initproc := by
  unfold Lists.handed Proc.passTo
  rw [Proc.wake_parent]
  by_cases hq : (s.proc q).parent = some pExit
  · have hm := ExitOk.mem_adopted hw ho hfree h (s.proc pExit).parent hq
    rw [if_pos hq]
    exact if_pos hm
  · have hm : q ∉ (s.lists.wakeup1 (.ofProc (s.proc pExit).parent)).adopted pExit :=
      fun hm => hq (mem_adopted_parent ho hw hm)
    rw [if_neg hq]
    exact if_neg hm

/-- Under `ExitOk` the searches leave the table as the scan does. -/
theorem ExitOk.exitBefore_eq (hr : Rep s s.lists) (q : Slot) :
    (s.lists.exitBefore pExit).proc q = (s.exitScanBefore pExit).proc q := by
  have hz₁ := wakeup1_zombies s.lists (.ofProc (s.proc pExit).parent)
  rw [Lists.exitBefore_proc ho hw, exitScanBefore_proc]
  have hh := ExitOk.handed_eq hw ho hfree h q
  by_cases hz : s.ZombieIn pExit (List.finRange NPROC)
  · rw [if_pos hz]
    by_cases hm : (s.lists.wakeup1 (.ofProc (s.lists.proc pExit).parent)).MeetsZombie pExit
    · rw [if_pos hm, hh]
      rfl
    · -- a zombie child that is not met: waking init changes nothing
      rw [if_neg hm, hh]
      refine (Proc.wake_of_not fun hwait => ?_).symm
      obtain ⟨c, -, hc, hcz⟩ := hz
      have hcl : c ∈ s.slots .zombie := (hw.mem_iff (by simp) c).2 hcz
      obtain ⟨-, hok⟩ := h.resolve_left (ne_nil_of_mem hcl)
      rw [passTo_waits] at hwait
      rcases hok c hc hcz with hhead | hno | hpar
      · refine hm ⟨c, ExitOk.mem_adopted hw ho hfree h _ hc, ?_⟩
        rw [wakeup1_zombies, ← hr.head_eq]
        exact hhead
      · have hq := waits_of_wake hwait
        cases hi : s.initproc with
        | none =>
          rw [hi] at hq
          exact (ho q).2 hq.1 hq.2
        | some i =>
          rw [hi] at hq
          obtain rfl := (ho q).1 i hq.2
          exact hno ⟨i, hi, hq⟩
      · rw [hpar] at hwait
        exact Proc.wake_not_waits _ _ hwait
  · rw [if_neg hz, if_neg, hh]
    rintro ⟨z, hzm, hzh⟩
    rw [wakeup1_zombies] at hzh
    exact hz ⟨z, mem_finRange z, mem_adopted_parent ho hw hzm,
      hw.state .zombie z (mem_of_head? hzh)⟩

theorem exitDone_of_exitOk (hr : Rep s s.lists) (hi : s.initproc ≠ some pExit)
    (hs' : s'.proc = (s.lists.exit pExit).proc) : s.ExitDone pExit s' := by
  have hbefore := ExitOk.exitBefore_eq hw ho hfree h hr
  obtain ⟨t, ht, htp⟩ := exitScan_eq s hi
  have hproc : s'.proc = t.proc := by
    funext q
    rw [hs', Lists.exit_proc, htp, hbefore, hbefore]
    rfl
  have hscan := exitScanBefore_proc s pExit
  refine ⟨fun c hc => ?_, fun i c hini hc hcz hwait => ?_, t, ht, hproc⟩
  · -- the parent field of a child in the scan's table
    have hpass : ∀ chan, (((s.proc c).wake chan).passTo pExit s.initproc).parent = s.initproc := by
      intro chan
      rw [Proc.passTo, if_pos (by rw [Proc.wake_parent, hc])]
    have hb : ((s.exitScanBefore pExit).proc c).parent = s.initproc := by
      rw [hscan c]
      split
      · rw [Proc.wake_parent, hpass]
      · exact hpass _
    rw [hproc, htp, ended_parent, hb]
  · have hne : i ≠ pExit := by
      rintro rfl
      exact hi hini
    have hz : s.ZombieIn pExit (List.finRange NPROC) := ⟨c, mem_finRange c, hc, hcz⟩
    rw [hproc, htp, if_neg hne, hscan, if_pos hz, ← Proc.passTo_wake, hini]
    have := wake_runnable hwait (.ofProc (s.proc pExit).parent)
    unfold Proc.passTo
    split <;> exact this

end

/-- A process that is not passed on keeps its parent. -/
theorem exit_parent (ho : a.Own) (hw : a.WF)
    (hc : c ∉ (a.wakeup1 (.ofProc (a.proc pExit).parent)).adopted pExit) :
    ((a.exit pExit).proc c).parent = (a.proc c).parent := by
  have hh : (a.handed pExit c).parent = (a.proc c).parent := by
    unfold Lists.handed
    rw [if_neg hc, Proc.wake_parent]
  rw [Lists.exit_proc, ended_parent, Lists.exitBefore_proc ho hw]
  split
  · rw [Proc.wake_parent, hh]
  · exact hh

theorem exitOk_of_exitDone (hr : Rep s s.lists) (hw : s.lists.WF) (ho : s.lists.Own)
    (hi : s.initproc ≠ some pExit) (hs' : s'.proc = (s.lists.exit pExit).proc)
    (h : s.ExitDone pExit s') : s.ExitOk pExit := by
  by_cases hz : s.slots .zombie = []
  · exact Or.inl hz
  have hbp := Lists.exitBefore_proc ho hw pExit
  -- a child that is not adopted keeps its parent
  have hadopt : ∀ c, (s.proc c).parent = some pExit →
      c ∈ (s.lists.wakeup1 (.ofProc (s.proc pExit).parent)).adopted pExit := by
    intro c hc
    by_contra hm
    have hp := h.parent c hc
    rw [hs', exit_parent ho hw hm] at hp
    exact hi (hp.symm.trans hc)
  have htake : (s.lists.wakeup1 (.ofProc (s.proc pExit).parent)).adopted pExit =
      ((s.lists.wakeup1 (.ofProc (s.proc pExit).parent)).children pExit).take 1 := by
    unfold Lists.adopted
    rw [wakeup1_zombies]
    exact if_neg hz
  have huniq : ∀ c d, (s.proc c).parent = some pExit → (s.proc d).parent = some pExit → c = d := by
    intro c d hc hd
    have hc := hadopt c hc
    have hd := hadopt d hd
    rw [htake, take_one, Option.mem_toList] at hc hd
    exact Option.some.inj (hc.symm.trans hd)
  refine Or.inr ⟨huniq, fun c hc hcz => ?_⟩
  by_contra hcon
  obtain ⟨hhead, hrest⟩ := not_or.1 hcon
  obtain ⟨hinit, hpar⟩ := not_or.1 hrest
  obtain ⟨i, hini, hwait⟩ := not_not.1 hinit
  have hne : i ≠ pExit := by
    rintro rfl
    exact hi hini
  have hm : ¬ (s.lists.wakeup1 (.ofProc (s.lists.proc pExit).parent)).MeetsZombie pExit := by
    rintro ⟨z, hzm, hzh⟩
    rw [wakeup1_zombies, ← hr.head_eq] at hzh
    rw [huniq z c (mem_adopted_parent ho hw hzm) hc] at hzh
    exact hhead hzh
  -- nobody wakes init
  have hst := h.init i c hini hc hcz hwait
  rw [hs', Lists.exit_proc, if_neg hne, hbp, if_neg hm] at hst
  have hno : ¬ (s.proc i).Waits (.ofProc (s.proc pExit).parent) := by
    intro hw'
    have hch := hw'.2
    rw [hwait.2] at hch
    cases hp : (s.proc pExit).parent with
    | none =>
      rw [hp] at hch
      cases hch
    | some j =>
      rw [hp] at hch
      cases hch
      exact hpar (hp.trans hini.symm)
  have hstate : (s.lists.handed pExit i).state = (s.proc i).state := by
    have hwk : (s.lists.proc i).wake (.ofProc (s.lists.proc pExit).parent) = s.proc i :=
      Proc.wake_of_not hno
    unfold Lists.handed
    rw [hwk]
    split <;> rfl
  rw [hstate, hwait.1] at hst
  cases hst

end

/-! ## Runs: who can be a parent -/

/-- No process gets a parent, none that can run stops for good, no channel goes astray. -/
structure Lists.Calm (a a' : Lists) : Prop where
  initproc : a'.initproc = a.initproc
  parent : ∀ c q, (a'.proc c).parent = some q → (a.proc c).parent = some q
  alive : ∀ p, (a.proc p).state.alive → (a'.proc p).state.alive
  own : a.Own → a'.Own

theorem Lists.Calm.trans {b c : Lists} (h : a.Calm b) (h' : b.Calm c) : a.Calm c where
  initproc := h'.initproc.trans h.initproc
  parent p q hp := h.parent p q (h'.parent p q hp)
  alive p hp := h'.alive p (h.alive p hp)
  own ho := h'.own (h.own ho)

theorem Lists.Resched.calm (h : a.Resched a') : a.Calm a' where
  initproc := h.initproc
  parent c q hc := by rwa [(h.proc c).parent] at hc
  alive p := (h.alive_iff p).2
  own ho := ho.resched h

/-- One slot that cannot run changes, without getting a parent or going to sleep. -/
theorem Lists.Calm.of_slot (p : Slot) (hi : a'.initproc = a.initproc)
    (ha : ∀ q, q ≠ p → a'.proc q = a.proc q) (hp : ¬ (a.proc p).state.alive)
    (hpar : ∀ q, (a'.proc p).parent = some q → (a.proc p).parent = some q)
    (hs : (a'.proc p).state ≠ .sleeping) (hc : (a'.proc p).chan = (a.proc p).chan) : a.Calm a' where
  initproc := hi
  parent c q := by
    by_cases he : c = p
    · subst he
      exact hpar q
    · rw [ha c he]
      exact id
  alive q hq := by
    have he : q ≠ p := fun he => hp (he ▸ hq)
    rwa [ha q he]
  own ho q := by
    by_cases he : q = p
    · subst he
      exact (ho q).of_chan hc fun hs' => absurd hs' hs
    · rw [ha q he]
      exact ho q

theorem Lists.reap_calm (hc : (a.proc c).state = .zombie) : a.Calm (a.reap c) := by
  refine .of_slot c rfl (fun q hq => a.reap_proc_of_ne hq) ?_ ?_ ?_ ?_
  · rw [hc]
    exact id
  · intro q hq
    rw [a.reap_proc_self] at hq
    cases hq
  · rw [a.reap_proc_self]
    simp
  · rw [a.reap_proc_self]

theorem Lists.waitTurn_calm (hw : a.WF) (hp : (a.proc p).state = .running) (back : Bool) :
    a.Calm (a.waitTurn back p).2 := by
  obtain ⟨b, d, hb, hbs, hd, hr⟩ := waitTurn_resched hw hp back
  refine (hb.calm.trans ?_).trans hr.calm
  rcases hd with rfl | ⟨c, hc, rfl⟩
  · exact (Lists.Resched.refl _).calm
  · exact reap_calm ((hbs c).trans hc)

/-- Every action but the copying in `fork` and `exit` is calm. -/
theorem step_calm {l l' : Kernel Lists} (hw : l.tab.WF) (hf : l.Forks) (hc : l.canL act)
    (h : l.execL act = .ok l') (hcopy : ∀ p np, act ≠ .copyuvmOk p np) (hexit : ∀ p, act ≠ .exit p) :
    l.tab.Calm l'.tab := by
  have hslot : ∀ (np : Slot) (f : Proc → Proc) (a' : Lists),
      (l.tab.proc np).state = .embryo ∨ (l.tab.proc np).state = .unused →
      a'.initproc = l.tab.initproc → a'.proc = (l.tab.modify np f).proc →
      (∀ q, (f q).parent = q.parent) → (∀ q, (f q).chan = q.chan) →
      (f (l.tab.proc np)).state ≠ .sleeping → l.tab.Calm a' := by
    intro np f a' hst hi hproc hpar hchan hs
    refine .of_slot np hi (fun q hq => ?_) ?_ (fun q hq => ?_) ?_ ?_
    · rw [hproc, Lists.modify_proc_of_ne _ _ hq]
    · rcases hst with hst | hst <;> rw [hst] <;> exact id
    · rwa [hproc, Lists.modify_proc_self, hpar] at hq
    · rwa [hproc, Lists.modify_proc_self]
    · rw [hproc, Lists.modify_proc_self, hchan]
  cases Kernel.moves hw hc h with
  | resched h _ => exact h.calm
  | @alloc _ np hnp =>
    have hi : l.tab.allocproc.2.initproc = l.tab.initproc := by
      rcases allocproc_cases l.tab with ⟨-, he⟩ | ⟨np, -, he⟩ <;> rw [he]
      rfl
    refine .of_slot np hi (fun q hq => ?_) ?_ (fun q hq => ?_) ?_ ?_
    · show l.tab.allocproc.2.proc q = _
      rw [allocproc_proc hnp, if_neg hq]
    · rw [allocproc_free hw hnp]
      exact id
    · change (l.tab.allocproc.2.proc np).parent = _ at hq
      rwa [allocproc_proc hnp, if_pos rfl] at hq
    · show (l.tab.allocproc.2.proc np).state ≠ _
      rw [allocproc_proc hnp, if_pos rfl]
      simp
    · show (l.tab.allocproc.2.proc np).chan = _
      rw [allocproc_proc hnp, if_pos rfl]
  | @fail _ p np _ _ hctl _ =>
    exact hslot np (fun q => { q with state := .unused }) _
      (Or.inl (hf.embryo p np _ hctl)) rfl rfl (fun _ => rfl) (fun _ => rfl) (by simp)
  | @init p np hctl =>
    refine hslot np _ _ (Or.inl (hf.embryo p np _ hctl)) rfl rfl (fun _ => rfl) (fun _ => rfl) ?_
    dsimp only
    rw [hf.embryo p np _ hctl]
    simp
  | @copy p np _ => exact absurd rfl (hcopy p np)
  | @ready p np hctl =>
    exact hslot np (fun q => { q with state := .runnable }) _
      (Or.inl (hf.embryo p np _ hctl)) rfl rfl (fun _ => rfl) (fun _ => rfl) (by simp)
  | @exit p _ => exact absurd rfl (hexit p)
  | wait hp back _ => exact Lists.waitTurn_calm hw hp back

/-- Channels are as `sleep` and `wait` set them, and init can run. -/
structure Kernel.Base (l : Kernel Lists) : Prop where
  own : l.tab.Own
  init : ∃ i, l.tab.initproc = some i ∧ (l.tab.proc i).state.alive

theorem exit_alive (hw : a.WF) {proc q : Slot} (hne : q ≠ proc) (hq : (a.proc q).state.alive) :
    ((a.exit proc).proc q).state.alive := by
  rw [Lists.exit_proc, if_neg hne]
  rcases exitBefore_state hw proc q with e | ⟨-, h⟩
  · rw [e]
    exact hq
  · exact h

theorem exit_initproc (a : Lists) (proc : Slot) : (a.exit proc).initproc = a.initproc :=
  congrArg Globals.initproc (Lists.exitBefore_toGlobals a proc)

theorem exit_own (hw : a.WF) (ho : a.Own) (proc : Slot) : (a.exit proc).Own := by
  have hb : (a.exitBefore proc).Own :=
    ((ho.resched (a.wakeup1_resched hw _)).adopt proc).resched
      (Lists.exitSearch_resched (wakeup1_wf hw _) proc)
  intro q
  rw [Lists.exit_proc]
  split
  · next he =>
    subst he
    exact .of_chan (q := (a.exitBefore q).proc q) rfl (fun hs => by cases hs) (hb q)
  · exact hb q

theorem Lists.forkCopy_proc (a : Lists) (p np q : Slot) :
    ((a.forkCopy p np).proc q).state = (a.proc q).state ∧
      ((a.forkCopy p np).proc q).chan = (a.proc q).chan := by
  unfold Lists.forkCopy
  by_cases he : q = np
  · subst he
    rw [Lists.modify_proc_self]
    exact ⟨rfl, rfl⟩
  · rw [Lists.modify_proc_of_ne _ _ he]
    exact ⟨rfl, rfl⟩

theorem base_step {l l' : Kernel Lists} (hw : l.tab.WF) (hf : l.Forks) (hb : l.Base)
    (hc : l.canL act) (h : l.execL act = .ok l') : l'.Base := by
  obtain ⟨i, hi, hal⟩ := hb.init
  by_cases hcopy : ∃ p np, act = .copyuvmOk p np
  · obtain ⟨p, np, rfl⟩ := hcopy
    cases h
    have hsame := l.tab.forkCopy_proc p np
    refine ⟨fun q => (hb.own q).of_chan (hsame q).2 fun hs => by rwa [← (hsame q).1], i, hi, ?_⟩
    show ((l.tab.forkCopy p np).proc i).state.alive
    rw [(hsame i).1]
    exact hal
  by_cases hexit : ∃ p, act = .exit p
  · obtain ⟨p, rfl⟩ := hexit
    obtain ⟨hne, rfl⟩ := Kernel.execL_exit h
    have hip : i ≠ p := by
      rintro rfl
      exact hne hi
    exact ⟨exit_own hw hb.own p, i, (exit_initproc _ p).trans hi, exit_alive hw hip hal⟩
  · have hcalm := step_calm hw hf hc h (fun p np e => hcopy ⟨p, np, e⟩) fun p e => hexit ⟨p, e⟩
    exact ⟨hcalm.own hb.own, i, hcalm.initproc.trans hi, hcalm.alive i hal⟩

theorem init_base (ticks : BitVec 32) : Kernel.Base ⟨Lists.userinit ticks, fun _ => .idle⟩ := by
  refine ⟨fun p => ?_, 0, rfl, trivial⟩
  show ((Lists.userinit ticks).proc p).OwnChan p
  by_cases hp : p = 0
  · subst hp
    have hst : ((Lists.userinit ticks).proc 0).state = .runnable := rfl
    exact .of_null rfl (by rw [hst]; simp)
  · rw [userinit_proc_of_ne ticks hp]
    exact .of_null rfl (by simp)

theorem reach_base {k : Kernel PTable} (h : kernel.Reach k) : k.lists.Base :=
  (kernel_invariant (fun _ _ => True) init_base
    (fun _ _ _ hk hf hb _ hc he _ => base_step hk.wf hf hb hc he)
    (h.restrict fun _ _ => trivial)).2.2

/-- From a reachable table, an `exit` does what it has to exactly when `ExitOk` holds. -/
theorem step_exitDone_iff {k k' : Kernel PTable} (h : kernel.Reach k)
    (hs : kernel.step k (.exit p) k') : k.tab.ExitDone p k'.tab ↔ k.tab.ExitOk p := by
  obtain ⟨hk, hf⟩ := reach_krep h
  have hb := reach_base h
  obtain ⟨-, he, -⟩ := step_krep hk hf hs
  obtain ⟨hi, htab⟩ := Kernel.execL_exit he
  have hproc : k'.tab.proc = (k.tab.lists.exit p).proc :=
    congrArg (fun l : Kernel Lists => l.tab.proc) htab
  exact ⟨exitOk_of_exitDone hk.rep hk.wf hb.own hi hproc,
    fun h => exitDone_of_exitOk hk.wf hb.own hf.free h hk.rep hi hproc⟩

/-! ## Runs: whose children `wait` returns -/

/-- The history of each slot: how many processes it has held, which process forked the one it
holds (slot and how many that slot had held), and whether an `exit` passed it to init. -/
structure Ghost where
  gen : Slot → Nat
  forker : Slot → Option (Slot × Nat)
  adopted : Slot → Bool

def Ghost.start : Ghost := ⟨fun _ => 0, fun _ => none, fun _ => false⟩

/-- A new process gets the slot. -/
def fresh (k k' : Kernel PTable) (p : Slot) : Prop :=
  (k.tab.proc p).state = .unused ∧ (k'.tab.proc p).state ≠ .unused

instance (k k' : Kernel PTable) (p : Slot) : Decidable (fresh k k' p) :=
  inferInstanceAs (Decidable (_ ∧ _))

def Ghost.step (k : Kernel PTable) (act : Action) (k' : Kernel PTable) (g : Ghost) : Ghost where
  gen p := if fresh k k' p then g.gen p + 1 else g.gen p
  forker c :=
    if fresh k k' c then none
    else match act with
      | .copyuvmOk p np => if c = np then some (p, g.gen p) else g.forker c
      | _ => g.forker c
  adopted c :=
    if fresh k k' c then false
    else match act with
      | .exit p => g.adopted c || decide ((k.tab.proc c).parent = some p ∧
          (k'.tab.proc c).parent = k.tab.initproc)
      | _ => g.adopted c

/-- The process in the slot `c` was forked by the one that is now in the slot `q`; or `q` is
init, which adopted it. -/
def Ghost.Kin (g : Ghost) (i : Option Slot) (c q : Slot) : Prop :=
  g.forker c = some (q, g.gen q) ∨ (i = some q ∧ g.adopted c = true)

/-- Every parent can run, and is the forker or init. -/
def Tree (a : Lists) (g : Ghost) : Prop :=
  ∀ c q, (a.proc c).parent = some q → (a.proc q).state.alive ∧ g.Kin a.initproc c q

/-- A child that stays the child of a process that can run stays kin. -/
theorem Ghost.Kin.step {k k' : Kernel PTable} {g : Ghost} {i : Option Slot} {q : Slot}
    (h : g.Kin i c q) (hc : ¬ fresh k k' c) (hq : ¬ fresh k k' q)
    (hcopy : ∀ p, act ≠ .copyuvmOk p c) : (g.step k act k').Kin i c q := by
  unfold Ghost.Kin Ghost.step
  dsimp only
  rw [if_neg hc, if_neg hc, if_neg hq]
  rcases h with h | ⟨hi, h⟩
  · left
    split
    · next p np =>
      rw [if_neg, h]
      rintro rfl
      exact hcopy p rfl
    · exact h
  · right
    refine ⟨hi, ?_⟩
    split
    · rw [h]
      rfl
    · exact h

/-- `exit` acts only in runs where it does what it has to. -/
def exitOk (k : Kernel PTable) : Action → Prop
  | .exit p => k.tab.ExitOk p
  | _ => True

instance (k : Kernel PTable) (act : Action) : Decidable (exitOk k act) := by
  induction act using Action.casesOn <;> dsimp only [exitOk] <;> infer_instance

section
variable {k k' : Kernel PTable} {g : Ghost}

/-- Neither a child nor a process that can run is in a free slot. -/
theorem not_fresh_child (hf : k.lists.Forks) {q : Slot} (hc : (k.tab.proc c).parent = some q) :
    ¬ fresh k k' c := by
  rintro ⟨hu, -⟩
  have hn : (k.tab.proc c).parent = none := hf.free c hu
  rw [hc] at hn
  cases hn

theorem not_fresh_alive {q : Slot} (hq : (k.tab.proc q).state.alive) : ¬ fresh k k' q := by
  rintro ⟨hu, -⟩
  rw [hu] at hq
  exact hq

theorem tree_calm (hf : k.lists.Forks) (hcalm : k.tab.lists.Calm k'.tab.lists)
    (hcopy : ∀ p np, act ≠ .copyuvmOk p np) (ht : Tree k.tab.lists g) :
    Tree k'.tab.lists (g.step k act k') := by
  intro c q hp
  have hp' := hcalm.parent c q hp
  obtain ⟨hq, hkin⟩ := ht c q hp'
  rw [hcalm.initproc]
  exact ⟨hcalm.alive q hq,
    hkin.step (not_fresh_child hf hp') (not_fresh_alive hq) fun p => hcopy p c⟩

/-- `fork` makes the caller, which runs, the parent of its embryo. -/
theorem tree_copy {np : Slot} (hrun : (k.tab.proc p).state = .running)
    (htab : k'.tab.lists = k.tab.lists.forkCopy p np) (ht : Tree k.tab.lists g) :
    Tree k'.tab.lists (g.step k (.copyuvmOk p np) k') := by
  have hproc : ∀ q, k'.tab.proc q = (k.tab.lists.forkCopy p np).proc q := fun q =>
    congrArg (fun a : Lists => a.proc q) htab
  have hst : ∀ q, (k'.tab.proc q).state = (k.tab.proc q).state := by
    intro q
    rw [hproc]
    exact (k.tab.lists.forkCopy_proc p np q).1
  have hfresh : ∀ q, ¬ fresh k k' q := by
    rintro q ⟨hu, hu'⟩
    exact hu' ((hst q).trans hu)
  have hini : k'.tab.lists.initproc = k.tab.lists.initproc := by
    rw [htab]
    rfl
  intro c q hp
  rw [hini]
  change (k'.tab.proc c).parent = some q at hp
  rw [hproc] at hp
  unfold Lists.forkCopy at hp
  by_cases hcn : c = np
  · subst hcn
    rw [Lists.modify_proc_self] at hp
    cases hp
    refine ⟨?_, Or.inl ?_⟩
    · show (k'.tab.proc p).state.alive
      rw [hst, hrun]
      trivial
    · unfold Ghost.step
      dsimp only
      rw [if_neg (hfresh c), if_pos rfl, if_neg (hfresh p)]
  · rw [Lists.modify_proc_of_ne _ _ hcn] at hp
    obtain ⟨hq, hkin⟩ := ht c q hp
    refine ⟨?_, hkin.step (hfresh c) (hfresh q) ?_⟩
    · show (k'.tab.proc q).state.alive
      rw [hst]
      exact hq
    · rintro r ⟨⟩
      exact hcn rfl

theorem tree_exit (hw : k.tab.lists.WF) (hf : k.lists.Forks) (hb : k.lists.Base)
    (hne : k.tab.initproc ≠ some p) (htab : k'.tab.lists = k.tab.lists.exit p)
    (hdone : k.tab.ExitDone p k'.tab) (ht : Tree k.tab.lists g) :
    Tree k'.tab.lists (g.step k (.exit p) k') := by
  obtain ⟨i, hi, hal⟩ := hb.init
  have hini : k'.tab.lists.initproc = k.tab.lists.initproc := by rw [htab, exit_initproc]
  intro c q hp
  rw [hini]
  by_cases hcp : (k.tab.proc c).parent = some p
  · -- a child of the caller now belongs to init
    have hpar : (k'.tab.proc c).parent = k.tab.initproc := hdone.parent c hcp
    obtain rfl : q = i := Option.some.inj ((hpar.symm.trans hp).symm.trans hi)
    have hqp : q ≠ p := by
      rintro rfl
      exact hne hi
    refine ⟨?_, Or.inr ⟨hi, ?_⟩⟩
    · rw [htab]
      exact exit_alive hw hqp hal
    · have hd : decide ((k.tab.proc c).parent = some p ∧ (k'.tab.proc c).parent = k.tab.initproc) =
          true := decide_eq_true ⟨hcp, hpar⟩
      unfold Ghost.step
      dsimp only
      rw [if_neg (not_fresh_child hf hcp), hd, Bool.or_true]
  · -- the others keep their parent, which is not the caller
    have ho : k.tab.lists.Own := hb.own
    have hpar : (k.tab.proc c).parent = some q := by
      rw [htab, exit_parent ho hw fun hm => hcp (mem_adopted_parent ho hw hm)] at hp
      exact hp
    obtain ⟨hq, hkin⟩ := ht c q hpar
    have hqp : q ≠ p := by
      rintro rfl
      exact hcp hpar
    refine ⟨?_, hkin.step (not_fresh_child hf hpar) (not_fresh_alive hq) (by simp)⟩
    rw [htab]
    exact exit_alive hw hqp hq

theorem tree_step (h : kernel.Reach k) (hok : exitOk k act) (hs : kernel.step k act k')
    (ht : Tree k.tab.lists g) : Tree k'.tab.lists (g.step k act k') := by
  obtain ⟨hk, hf⟩ := reach_krep h
  obtain ⟨hc, he, -⟩ := step_krep hk hf hs
  by_cases hcopy : ∃ p np, act = .copyuvmOk p np
  · obtain ⟨p, np, rfl⟩ := hcopy
    exact tree_copy hc.1 (congrArg Kernel.tab (Except.ok.inj he)).symm ht
  by_cases hexit : ∃ p, act = .exit p
  · obtain ⟨p, rfl⟩ := hexit
    obtain ⟨hne, htab⟩ := Kernel.execL_exit he
    exact tree_exit hk.wf hf (reach_base h) hne (congrArg Kernel.tab htab)
      ((step_exitDone_iff h hs).2 hok) ht
  · exact tree_calm hf (step_calm hk.wf hf hc he (fun p np e => hcopy ⟨p, np, e⟩)
      fun p e => hexit ⟨p, e⟩) (fun p np e => hcopy ⟨p, np, e⟩) ht

/-- The runs whose exits all meet `ExitOk`, with their history. -/
def exits : System (Kernel PTable × Ghost) Action :=
  (kernel.restrict exitOk).withGhost Ghost.start Ghost.step

theorem reach_tree (h : exits.Reach (k, g)) : Tree k.tab.lists g := by
  refine System.Reach.invariant (S := exits) (P := fun x => Tree x.1.tab.lists x.2) ?_ ?_ h
  · rintro ⟨k, g⟩ ⟨⟨ticks, hs, hc⟩, -⟩ c q hp
    obtain ⟨s, hs', hr, -⟩ := userinit_sim ticks
    rw [hs] at hs'
    cases hs'
    rw [hr.lists_eq] at hp
    by_cases hc : c = 0
    · subst hc
      cases hp
    · rw [userinit_proc_of_ne ticks hc] at hp
      cases hp
  · rintro ⟨k, g⟩ act ⟨k', g'⟩ hr ht ⟨⟨hok, hs⟩, hg⟩
    dsimp only at hg
    subst hg
    exact tree_step hr.of_ghost.of_restrict hok hs ht

/-- What a turn of `wait` returns is the pid of a zombie child of the caller. -/
theorem waitTurn_child {s s' : PTable} (hr : Rep s s.lists) (hw : s.lists.WF)
    (hp : (s.proc p).state = .running) {back : Bool} {r : BitVec 32} (hne : r ≠ -1)
    (h : s.waitTurn back p = .ok (some r, s')) :
    ∃ c, (s.proc c).state = .zombie ∧ (s.proc c).pid = r ∧ (s.proc c).parent = some p := by
  have key : ∀ a : Lists, a.WF → (a.wait p).1 = some r →
      ∃ c, (a.proc c).state = .zombie ∧ (a.proc c).pid = r ∧ (a.proc c).parent = some p := by
    intro a hwa ha
    unfold Lists.wait at ha
    dsimp only at ha
    split at ha
    · cases ha
      cases hz : a.zombieChild p with
      | none =>
        refine absurd ?_ hne
        unfold Lists.waitPass
        rw [hz]
      | some c =>
        have hm := mem_of_find?_eq_some hz
        refine ⟨c, hwa.state .zombie c hm, ?_, by simpa using find?_some hz⟩
        unfold Lists.waitPass
        rw [hz]
    · split at ha
      · cases ha
        exact absurd rfl hne
      · cases ha
  obtain ⟨t, ht, -⟩ := waitTurn_sim hr hw ((hw.mem_iff (by simp) p).2 hp) back
  rw [h] at ht
  have hret : (s.lists.waitTurn back p).1 = some r := by
    have := Except.ok.inj ht
    exact (congrArg Prod.fst this).symm
  unfold Lists.waitTurn at hret
  cases back with
  | false => exact key _ hw hret
  | true =>
    rw [if_pos rfl] at hret
    obtain ⟨c, hc⟩ := key _ (hw.modify rfl (hw.prio p)) hret
    refine ⟨c, ?_⟩
    by_cases he : c = p
    · subst he
      rw [Lists.modify_proc_self] at hc
      exact hc
    · rw [Lists.modify_proc_of_ne _ _ he] at hc
      exact hc

end

/-- From every reachable table an `exit` of a process other than init comes to its end, and has
then done what the table-scan version does exactly when `ExitOk` holds before.  In every state
of every run whose exits meet `ExitOk`, no parent is a zombie or a free slot, and what `wait`
returns is the pid of a zombie that the caller forked or, for init, adopted. -/
theorem exit_orphans (k : Kernel PTable) :
    (kernel.Reach k → ∀ p, k.can (.exit p) → k.tab.initproc ≠ some p →
      ∃ k', k.exec (.exit p) = .ok k' ∧ (k.tab.ExitDone p k'.tab ↔ k.tab.ExitOk p)) ∧
    (∀ g, exits.Reach (k, g) →
      (∀ c q, (k.tab.proc c).parent = some q →
        (k.tab.proc q).state ≠ .zombie ∧ (k.tab.proc q).state ≠ .unused) ∧
      ∀ p r s', k.can (.wait p) → k.tab.waitTurn (k.ctl p = .waiting) p = .ok (some r, s') →
        r ≠ -1 → ∃ c, (k.tab.proc c).state = .zombie ∧ (k.tab.proc c).pid = r ∧
          (k.tab.proc c).parent = some p ∧ g.Kin k.tab.initproc c p) := by
  constructor
  · intro h p hc hne
    obtain ⟨hk, hf⟩ := reach_krep h
    have hs := exec_sim hk hf hc
    have hne' : k.lists.tab.initproc ≠ some p := hne
    unfold Kernel.execL at hs
    dsimp only at hs
    rw [if_neg hne'] at hs
    obtain ⟨k', hk', -⟩ := hs
    exact ⟨k', hk', step_exitDone_iff h ⟨hc, hk'⟩⟩
  · intro g h
    have ht := reach_tree h
    have hk := (reach_krep h.of_ghost.of_restrict).1
    refine ⟨fun c q hp => ?_, fun p r s' hc hwt hne => ?_⟩
    · obtain ⟨hq, -⟩ := ht c q hp
      change (k.tab.proc q).state.alive at hq
      constructor <;> intro he <;> rw [he] at hq <;> exact hq
    · obtain ⟨c, hz, hpid, hpar⟩ := waitTurn_child hk.rep hk.wf hc.1 hne hwt
      exact ⟨c, hz, hpid, hpar, (ht c p hpar).2⟩

/-- A run without zombies: the child of init exits while init waits, and init then gets its pid. -/
theorem exit_orphans_child :
    (∃ k k', kernel.Reach k ∧ k.tab.ExitOk 1 ∧ k.exec (.exit 1) = .ok k' ∧
      k.tab.ExitDone 1 k'.tab) ∧
    ∃ k g s', exits.Reach (k, g) ∧ k.tab.waitTurn (k.ctl 0 = .waiting) 0 = .ok (some 2, s') ∧
      ∃ c, (k.tab.proc c).pid = 2 ∧ g.Kin k.tab.initproc c 0 := by
  constructor
  · obtain ⟨k, hk, hP⟩ := Kernel.exists_reach
      [.scheduler, .forkAlloc 0, .kallocOk 0 1, .copyuvmOk 0 1, .forkReady 0 1, .wait 0, .scheduler]
      (P := fun k => decide (k.can (.exit 1) ∧ k.tab.initproc ≠ some 1 ∧ k.tab.ExitOk 1))
      (by decide +kernel)
    obtain ⟨hc, hne, hok⟩ := of_decide_eq_true hP
    obtain ⟨k', hk', hiff⟩ := (exit_orphans k).1 hk 1 hc hne
    exact ⟨k, k', hk, hok, hk', hiff.2 hok⟩
  · obtain ⟨k, hk, hP⟩ := Kernel.exists_reach_restrict exitOk
      [.scheduler, .forkAlloc 0, .kallocOk 0 1, .copyuvmOk 0 1, .forkReady 0 1, .wait 0, .scheduler,
        .exit 1, .scheduler]
      (P := fun k => decide (k.can (.wait 0)) &&
        (k.tab.waitTurn (k.ctl 0 = .waiting) 0).toOption.any (·.1 == some 2)) (by decide +kernel)
    obtain ⟨g, hg⟩ := hk.to_ghost Ghost.start Ghost.step
    simp only [Bool.and_eq_true, decide_eq_true_eq] at hP
    obtain ⟨⟨r, s'⟩, hs, hr⟩ := exists_ok hP.2
    obtain rfl : r = some 2 := beq_iff_eq.1 hr
    obtain ⟨c, -, hpid, -, hkin⟩ := ((exit_orphans k).2 g hg).2 0 2 s' hP.1 hs (by decide)
    exact ⟨k, g, s', hg, hs, c, hpid, hkin⟩

/-- On two processors: process 1 has forked 3 and 4, process 2 has become a zombie, and then
process 1 exits.  Its child 4 is left with the zombie 1 as its parent. -/
theorem exit_loses_child : ∃ k k', kernel.Reach k ∧ kernel.step k (.exit 1) k' ∧
    (k.tab.proc 4).parent = some 1 ∧ (k'.tab.proc 4).parent = some 1 ∧
    (k'.tab.proc 4).state = .runnable ∧ (k'.tab.proc 1).state = .zombie ∧
    ¬ k.tab.ExitDone 1 k'.tab := by
  obtain ⟨k, hk, hP⟩ := Kernel.exists_reach
    [.scheduler, .forkAlloc 0, .kallocOk 0 1, .copyuvmOk 0 1, .forkReady 0 1,
      .forkAlloc 0, .kallocOk 0 2, .copyuvmOk 0 2, .forkReady 0 2, .scheduler,
      .forkAlloc 1, .kallocOk 1 3, .copyuvmOk 1 3, .forkReady 1 3,
      .forkAlloc 1, .kallocOk 1 4, .copyuvmOk 1 4, .forkReady 1 4,
      .yield 0, .scheduler, .exit 2]
    (P := fun k => decide (k.can (.exit 1) ∧ (k.tab.proc 4).parent = some 1 ∧
        k.tab.initproc = some 0) &&
      (k.exec (.exit 1)).toOption.any fun k' : Kernel PTable =>
        decide ((k'.tab.proc 4).parent = some 1 ∧ (k'.tab.proc 4).state = .runnable ∧
          (k'.tab.proc 1).state = .zombie)) (by decide +kernel)
  simp only [Bool.and_eq_true, decide_eq_true_eq] at hP
  obtain ⟨⟨hc, hpar, hini⟩, hP⟩ := hP
  obtain ⟨k', hs, hP⟩ := exists_ok hP
  obtain ⟨hpar', hst, hz⟩ := of_decide_eq_true hP
  refine ⟨k, k', hk, ⟨hc, hs⟩, hpar, hpar', hst, hz, fun hd => ?_⟩
  have := hd.parent 4 hpar
  rw [hpar', hini] at this
  cases this

end Xv6.Procs
