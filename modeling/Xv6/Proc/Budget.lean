import Xv6.Proc.Fields
import Xv6.Proc.Order

/-!
# Budgets

The budget of a process is charged in `yield` and `sleep` and filled up in five places.  Beside the
kernel runs an account: what the dispatches of a process that ended in `yield` or `sleep` have
lasted since its budget was last filled up.  A budget that is not filled up is the rest.
-/

namespace Xv6.Procs

open Function

variable {p : Slot} {g : Slot → Nat}

/-- A promotion is due. -/
def PTable.Due (s : PTable) : Prop := s.promoteAtTime ≤ s.ticks

instance (s : PTable) : Decidable s.Due := inferInstanceAs (Decidable (_ ≤ _))

/-! ## A pass of the scheduler -/

theorem budget_minor : Minor fun q q' => q'.budget = q.budget :=
  ⟨fun _ => rfl, fun _ _ _ h h' => h'.trans h, fun _ _ => rfl, fun _ _ => rfl, fun _ _ => rfl,
    fun _ _ _ _ _ => rfl⟩

namespace Lists

variable {a b : Lists}

theorem promoteDue_of_due (hw : a.WF) (hp : a.PlacedFrom 1) (hdue : a.promoteAtTime ≤ a.ticks)
    (hb : a.promoteDue = .ok b) :
    b.ticks = a.ticks ∧ b.promoteAtTime = a.ticks + ticksToPromote ∧
    ∀ p, (a.Promotable p → b.proc p = (a.proc p).raise) ∧
      (¬ a.Promotable p → b.proc p = a.proc p) := by
  obtain ⟨c, hs, hc⟩ := promoteProcs_eq hw hp
  have hticks : (a.promoteRest c).ticks = a.ticks := congrArg Globals.ticks hs.globals
  have hproc := promoteRest_proc hw hs
  generalize a.promoteRest c = d at hc hticks hproc
  unfold promoteDue at hb
  rw [if_pos hdue, hc] at hb
  obtain rfl := Except.ok.inj hb
  exact ⟨hticks, by rw [hticks], hproc⟩

variable {r : Option Slot × Lists}

/-- A dispatch writes neither budgets nor the time of the promotion. -/
theorem dispatch_fields (hr : forIn dispatch (List.range (maxPrio + 1)) b = .ok r) :
    Keeps (fun q q' => q'.budget = q.budget) b r.2 := by
  have hR := budget_minor
  rcases dispatch_cases b with ⟨-, hrun⟩ | ⟨i, p, -, hp, -, hrun⟩
  · rw [hrun] at hr
    cases hr
    exact .refl hR b
  · rw [hrun, dispatch, hp] at hr
    obtain ⟨c, hc, rfl⟩ := map_ok hr
    unfold requeueAt at hc
    split at hc
    · cases hc
    · cases hc
      have hmove : Keeps _ b
          (b.requeue (.ready i) .running p fun q => { q with state := .running }) :=
        .requeue hR rfl
      refine hmove.trans hR ?_
      dsimp only
      exact .modify hR rfl

theorem scheduler_fields (hw : a.WF) (hp : a.PlacedFrom 1) (hr : a.scheduler = .ok r) :
    r.2.ticks = a.ticks ∧
    (a.promoteAtTime ≤ a.ticks → r.2.promoteAtTime = a.ticks + ticksToPromote) ∧
    (¬ a.promoteAtTime ≤ a.ticks → r.2.promoteAtTime = a.promoteAtTime) ∧
    ∀ p, (a.promoteAtTime ≤ a.ticks ∧ a.Promotable p → (r.2.proc p).budget = maxBudget) ∧
      (¬ (a.promoteAtTime ≤ a.ticks ∧ a.Promotable p) →
        (r.2.proc p).budget = (a.proc p).budget) := by
  rw [scheduler_eq] at hr
  obtain ⟨b, hb, hr⟩ := bind_ok hr
  have hd := dispatch_fields hr
  by_cases hdue : a.promoteAtTime ≤ a.ticks
  · obtain ⟨ht, htime, hproc⟩ := promoteDue_of_due hw hp hdue hb
    refine ⟨hd.ticks.trans ht, fun _ => hd.time.trans htime, fun h => absurd hdue h, fun p =>
      ⟨fun h => ?_, fun h => ?_⟩⟩
    · rw [hd.proc p, (hproc p).1 h.2]
      rfl
    · rw [hd.proc p, (hproc p).2 fun hpr => h ⟨hdue, hpr⟩]
  · unfold promoteDue at hb
    rw [if_neg hdue] at hb
    cases hb
    exact ⟨hd.ticks, fun h => absurd h hdue, fun _ => hd.time, fun p =>
      ⟨fun h => absurd h.1 hdue, fun _ => hd.proc p⟩⟩

end Lists

/-! ## The account -/

/-- The ticks since `p` was dispatched. -/
def PTable.lasted (s : PTable) (p : Slot) : BitVec 32 := s.ticks - (s.proc p).cpuTicksIn

/-- The process whose dispatch ends in `yield` or `sleep`; a turn of `wait` may sleep. -/
def leaver (act : Action) (k' : Kernel PTable) : Option Slot :=
  match act with
  | .yield p | .sleep p _ => some p
  | .wait p => if (k'.tab.proc p).state = .sleeping then some p else none
  | _ => none

/-- `budget = MAX_BUDGET` is executed for `q`. -/
def Resets (k : Kernel PTable) (act : Action) (k' : Kernel PTable) (q : Slot) : Prop :=
  match act with
  | .kallocOk _ np => q = np
  | .scheduler => k.tab.Due ∧ k.tab.lists.Promotable q
  | .setpriority _ pID prio =>
    k.tab.lists.setprioTarget pID = some q ∧ (k.tab.proc q).priority ≠ prio
  | act => leaver act k' = some q ∧ ((k.tab.proc q).budget - k.tab.lasted q).toInt ≤ 0

open Classical in
/-- What a process has used since its budget was last filled up. -/
noncomputable def use (k : Kernel PTable) (act : Action) (k' : Kernel PTable) (g : Slot → Nat)
    (q : Slot) : Nat :=
  if Resets k act k' q then 0
  else if leaver act k' = some q then g q + (k.tab.lasted q).toNat else g q

/-- Dispatches last fewer than `2 ^ 31` ticks. -/
def short (k : Kernel PTable) : Action → Prop
  | .yield p | .sleep p _ | .wait p => (k.tab.lasted p).toNat < 2 ^ 31
  | _ => True

instance (k : Kernel PTable) (act : Action) : Decidable (short k act) := by
  induction act using Action.casesOn <;> dsimp only [short] <;> infer_instance

noncomputable def accounts : System (Kernel PTable × (Slot → Nat)) Action :=
  (kernel.restrict short).withGhost (fun _ => 0) use

theorem charge_budget (ticks : BitVec 32) (q : Proc) : (PTable.charge ticks q).budget =
    if (q.budget - (ticks - q.cpuTicksIn)).toInt ≤ 0 then maxBudget
    else q.budget - (ticks - q.cpuTicksIn) := by
  unfold PTable.charge
  dsimp only
  split <;> rfl

theorem charge_priority (ticks : BitVec 32) {q : Proc} (hq : q.priority ≤ maxPrio) :
    (PTable.charge ticks q).priority =
      if (q.budget - (ticks - q.cpuTicksIn)).toInt ≤ 0 then min (q.priority + 1) maxPrio
      else q.priority := by
  unfold PTable.charge
  dsimp only
  split
  · dsimp only
    split <;> omega
  · rfl

/-! ## What a step does to the budgets -/

section
variable {k k' : Kernel PTable} {act : Action} {q : Slot}

/-- The caller of `yield` or `sleep` is charged, and no other process is. -/
structure Charged (k k' : Kernel PTable) (p : Slot) : Prop where
  budget : (k'.tab.proc p).budget = (PTable.charge k.tab.ticks (k.tab.proc p)).budget
  priority : (k'.tab.proc p).priority = (PTable.charge k.tab.ticks (k.tab.proc p)).priority
  others : ∀ q, q ≠ p → (k'.tab.proc q).budget = (k.tab.proc q).budget

theorem charge_chan (ticks : BitVec 32) (q : Proc) (c : Chan) :
    PTable.charge ticks { q with chan := c } = { PTable.charge ticks q with chan := c } := by
  unfold PTable.charge
  dsimp only
  split <;> rfl

theorem Charged.of_sleep {d : Lists} {c : Chan} (htab : k'.tab.lists = d.sleep p c)
    (hticks : d.ticks = k.tab.ticks) (hself : ∃ ch, d.proc p = { k.tab.proc p with chan := ch })
    (hothers : ∀ q, q ≠ p → (d.proc q).budget = (k.tab.proc q).budget) : Charged k k' p := by
  obtain ⟨ch, hself⟩ := hself
  have hproc : k'.tab.proc = (d.sleep p c).proc := congrArg Lists.proc htab
  refine ⟨?_, ?_, fun q hq => ?_⟩
  · rw [hproc, d.sleep_proc_self, hticks, charge_chan, hself, charge_chan]
  · rw [hproc, d.sleep_proc_self, hticks, charge_chan, hself, charge_chan]
  · rw [hproc, d.sleep_proc_of_ne p c hq]
    exact hothers q hq

/-- A turn of `wait` charges the caller when it sleeps, and else leaves all budgets alone. -/
theorem wait_charged (hw : k.tab.lists.WF) (hp : (k.tab.proc p).state = .running) {back : Bool}
    (htab : k'.tab.lists = (k.tab.lists.waitTurn back p).2) :
    (k'.tab.proc p).state = .sleeping ∧ Charged k k' p ∨
    (k'.tab.proc p).state ≠ .sleeping ∧
      ∀ q, (k'.tab.proc q).budget = (k.tab.proc q).budget := by
  obtain ⟨b, d, hb, hd, hr⟩ := k.tab.lists.waitTurn_cases p back
  have hR := budget_minor
  have hbk : Lists.Keeps (fun q q' => q'.budget = q.budget) k.tab.lists b ∧
      ∃ ch, b.proc p = { k.tab.proc p with chan := ch } := by
    rcases hb with rfl | rfl
    · exact ⟨.refl hR _, (k.tab.proc p).chan, rfl⟩
    · exact ⟨.modify hR rfl, .null, Lists.modify_proc_self ..⟩
  have hdk : Lists.Keeps (fun q q' => q'.budget = q.budget) b d ∧ d.proc p = b.proc p := by
    rcases hd with rfl | ⟨c, hc, rfl⟩
    · exact ⟨.refl hR _, rfl⟩
    · exact ⟨Lists.reap_keeps hR b c fun _ => rfl,
        b.reap_proc_of_ne (Lists.zombie_of_turn hw hp hb hc).2⟩
  obtain ⟨ch, hch⟩ := hbk.2
  have hkeep := hbk.1.trans hR hdk.1
  rcases hr with ⟨-, hr⟩ | ⟨-, hr⟩
  · have hproc : k'.tab.proc = d.proc := congrArg Lists.proc (htab.trans hr)
    right
    rw [hproc]
    refine ⟨?_, hkeep.proc⟩
    rw [hdk.2, hch]
    show (k.tab.proc p).state ≠ _
    rw [hp]
    nofun
  · left
    refine ⟨?_, .of_sleep (htab.trans hr) hkeep.ticks ⟨ch, hdk.2.trans hch⟩ fun q _ => hkeep.proc q⟩
    rw [show k'.tab.proc = _ from congrArg Lists.proc (htab.trans hr), d.sleep_proc_self]

/-- A budget is filled up, or charged, or stays. -/
structure Accounted (k : Kernel PTable) (act : Action) (k' : Kernel PTable) (q : Slot) : Prop where
  reset : Resets k act k' q → (k'.tab.proc q).budget = maxBudget
  charge : ¬ Resets k act k' q → leaver act k' = some q →
    (k'.tab.proc q).budget = (k.tab.proc q).budget - k.tab.lasted q
  stay : ¬ Resets k act k' q → leaver act k' ≠ some q →
    (k'.tab.proc q).budget = (k.tab.proc q).budget

theorem Accounted.of_same (hres : ¬ Resets k act k' q) (hl : leaver act k' ≠ some q)
    (h : (k'.tab.proc q).budget = (k.tab.proc q).budget) : Accounted k act k' q :=
  ⟨fun hr => absurd hr hres, fun _ hl' => absurd hl' hl, fun _ _ => h⟩

theorem Charged.accounted {p : Slot} (h : Charged k k' p) (hl : leaver act k' = some p)
    (hres : ∀ q, Resets k act k' q ↔
      leaver act k' = some q ∧ ((k.tab.proc q).budget - k.tab.lasted q).toInt ≤ 0) (q : Slot) :
    Accounted k act k' q := by
  by_cases he : q = p
  · subst he
    have hb := h.budget
    rw [charge_budget] at hb
    refine ⟨fun hr => ?_, fun hr _ => ?_, fun _ hne => absurd hl hne⟩
    · rw [hb]
      exact if_pos ((hres q).1 hr).2
    · rw [hb]
      exact if_neg fun hle => hr ((hres q).2 ⟨hl, hle⟩)
  · have hne : leaver act k' ≠ some q := fun hq => he (Option.some.inj (hq.symm.trans hl))
    exact .of_same (fun hr => hne ((hres q).1 hr).1) hne (h.others q he)

theorem resets_of_leaver (hl : leaver act k' = some p) (q : Slot) :
    Resets k act k' q ↔
      leaver act k' = some q ∧ ((k.tab.proc q).budget - k.tab.lasted q).toInt ≤ 0 := by
  cases act with
  | yield p => exact Iff.rfl
  | sleep p chan => exact Iff.rfl
  | wait p => exact Iff.rfl
  | _ => cases hl

theorem step_charged (hk : KRep k k.lists) (hf : k.lists.Forks) (h : kernel.step k act k')
    (hl : leaver act k' = some p) : Charged k k' p := by
  obtain ⟨hc, he, -⟩ := step_krep hk hf h
  cases act with
  | yield p =>
    cases hl
    have hproc : k'.tab.proc = (k.tab.lists.yield p).proc :=
      (congrArg (fun l => l.tab.proc) (Except.ok.inj he)).symm
    refine ⟨?_, ?_, fun q hq => ?_⟩
    · rw [hproc, Lists.yield_proc_self]
      rfl
    · rw [hproc, Lists.yield_proc_self]
      rfl
    · rw [hproc, Lists.yield_proc_of_ne _ p hq]
      rfl
  | sleep p chan =>
    cases hl
    exact .of_sleep (congrArg Kernel.tab (Except.ok.inj he)).symm rfl
      ⟨(k.tab.proc p).chan, rfl⟩ fun _ _ => rfl
  | wait p =>
    have htab : k'.tab.lists = (k.tab.lists.waitTurn (k.ctl p = .waiting) p).2 :=
      (congrArg Kernel.tab (Except.ok.inj he)).symm
    dsimp only [leaver] at hl
    split at hl
    · next hs =>
      cases hl
      rcases wait_charged hk.wf hc.1 htab with ⟨-, hch⟩ | ⟨hn, -⟩
      · exact hch
      · exact absurd hs hn
    · cases hl
  | _ => cases hl

theorem setpriority_budget {a : Lists} (hw : a.WF) (pID : BitVec 32) (prio : Nat) :
    Post (fun _ => True) (fun r => ∀ q, (r.2.proc q).budget =
      if a.setprioTarget pID = some q ∧ (a.proc q).priority ≠ prio then maxBudget
      else (a.proc q).budget) (a.setpriority pID prio) := by
  have hmod : ∀ (p : Slot) (f : Proc → Proc), a.setprioTarget pID = some p →
      (a.proc p).priority ≠ prio → (f (a.proc p)).budget = maxBudget → ∀ q,
      ((a.modify p f).proc q).budget =
        if a.setprioTarget pID = some q ∧ (a.proc q).priority ≠ prio then maxBudget
        else (a.proc q).budget := by
    intro p f htarget hpr hf q
    by_cases hq : q = p
    · subst hq
      rw [if_pos ⟨htarget, hpr⟩, Lists.modify_proc_self, hf]
    · rw [if_neg fun h => hq (Option.some.inj (h.1.symm.trans htarget)),
        Lists.modify_proc_of_ne _ _ hq]
  refine Lists.setpriority_post (G := fun b => ∀ q, (b.proc q).budget =
    if a.setprioTarget pID = some q ∧ (a.proc q).priority ≠ prio then maxBudget
    else (a.proc q).budget) hw pID prio ?_ ?_ ?_
  · intro hsame q
    rw [if_neg fun h => h.2 (hsame q h.1)]
  · intro i p _ htarget hpr
    refine Lists.requeueAt_post (fun _ q => ?_) fun _ => trivial
    rw [Lists.requeue_proc]
    exact hmod p (fun x => { x with priority := prio, budget := maxBudget }) htarget hpr rfl q
  · intro p _ htarget hpr
    exact hmod p _ htarget hpr rfl

theorem step_accounted (hk : KRep k k.lists) (hf : k.lists.Forks)
    (hp : k.lists.tab.PlacedFrom 1) (h : kernel.step k act k') (q : Slot) :
    Accounted k act k' q := by
  cases hl : leaver act k' with
  | some p => exact (step_charged hk hf h hl).accounted hl (resets_of_leaver hl) q
  | none =>
    have hR := budget_minor
    have hne : leaver act k' ≠ some q := by rw [hl]; nofun
    obtain ⟨hc, he, -⟩ := step_krep hk hf h
    -- what writes no budget at all
    have hquiet : ∀ l : Kernel Lists, (¬ Resets k act k' q) →
        Except.ok (ε := Panic) l = .ok k'.lists →
        Lists.Keeps (fun q q' => q'.budget = q.budget) k.lists.tab l.tab →
        Accounted k act k' q := by
      intro l hres hl hkeep
      refine .of_same hres hne ?_
      have := hkeep.proc q
      rwa [Except.ok.inj hl] at this
    have hleave : ¬ (leaver act k' = some q ∧
        ((k.tab.proc q).budget - k.tab.lasted q).toInt ≤ 0) := fun h => hne h.1
    cases act with
    | tick =>
      exact .of_same hleave hne
        (congrArg (fun l => (l.tab.proc q).budget) (Except.ok.inj he)).symm
    | scheduler =>
      obtain ⟨r, hr, hk'⟩ := map_ok he
      obtain ⟨-, -, -, hb⟩ := Lists.scheduler_fields hk.wf hp hr
      have htab : k'.tab.proc q = r.2.proc q := congrArg (fun l => l.tab.proc q) hk'
      refine ⟨fun hres => ?_, fun _ h => absurd h hne, fun hres _ => ?_⟩
      · rw [htab]
        exact (hb q).1 hres
      · rw [htab]
        exact (hb q).2 hres
    | wakeup _ | sleepReturn _ | kallocFail _ _ | copyuvmFail _ _ | copyuvmOk _ _ | forkReady _ _
    | exit _ => exact hquiet _ hleave rfl (quiet_step hR he trivial)
    | yield p => cases hl
    | sleep p chan => cases hl
    | trapKill p =>
      exact hquiet _ hleave he (.modify hR (f := fun x => { x with killed := true }) rfl)
    | forkAlloc p =>
      have hkeep := Lists.allocproc_keeps hR (fun _ _ => rfl) k.lists.tab
      rw [← Kernel.execL_forkAlloc he] at hkeep
      exact hquiet _ hleave rfl hkeep
    | kallocOk p np =>
      have htab : k'.tab.proc q = (k.lists.tab.allocInit np).proc q :=
        (congrArg (fun l => l.tab.proc q) (Except.ok.inj he)).symm
      unfold Lists.allocInit at htab
      refine ⟨fun hres => ?_, fun _ h => absurd h hne, fun hres _ => ?_⟩
      · have hres : q = np := hres
        subst hres
        rw [htab, Lists.modify_proc_self]
      · rw [htab, Lists.modify_proc_of_ne _ _ hres]
        rfl
    | wait p =>
      have htab : k'.tab.lists = (k.tab.lists.waitTurn (k.ctl p = .waiting) p).2 :=
        (congrArg Kernel.tab (Except.ok.inj he)).symm
      rcases wait_charged hk.wf hc.1 htab with ⟨hs, -⟩ | ⟨-, hsame⟩
      · dsimp only [leaver] at hl
        rw [if_pos hs] at hl
        cases hl
      · exact .of_same hleave hne (hsame q)
    | kill p pid =>
      exact hquiet _ hleave he (Lists.kill_keeps hR _ pid fun _ _ => rfl)
    | setpriority p pID prio =>
      obtain ⟨r, hr, hk'⟩ := map_ok he
      have hb := (setpriority_budget hk.wf pID prio).of_ok hr q
      have htab : k'.tab.proc q = r.2.proc q := congrArg (fun l => l.tab.proc q) hk'
      refine ⟨fun hres => ?_, fun _ h => absurd h hne, fun hres _ => ?_⟩
      · rw [htab, hb]
        exact if_pos hres
      · rw [htab, hb]
        exact if_neg hres

/-! ## Runs -/

/-- The processes that have a budget: from `kalloc` in `allocproc` on until they exit. -/
def Counted (k : Kernel PTable) (q : Slot) : Prop :=
  (k.tab.proc q).state.alive ∨ ∃ p st, k.ctl p = .fork q st ∧ st ≠ .alloc

theorem fork_step (hk : KRep k k.lists) (hf : k.lists.Forks) (h : kernel.step k act k') {st : Stage}
    (hctl : k'.ctl p = .fork q st) (hst : st ≠ .alloc) :
    (∃ st', k.ctl p = .fork q st' ∧ st' ≠ .alloc) ∨ act = .kallocOk p q := by
  obtain ⟨hc, he, -⟩ := step_krep hk hf h
  -- the caller goes on with another stage, or all stand where they stood
  have hset : ∀ {r : Slot} {c : Ctl} {a : Lists}, (k.lists.set r c a).ctl p = .fork q st →
      (p = r ∧ c = .fork q st) ∨ k.ctl p = .fork q st := by
    intro r c a h
    by_cases hp : p = r
    · subst hp
      exact .inl ⟨rfl, (update_self ..).symm.trans h⟩
    · exact .inr ((update_of_ne hp ..).symm.trans h)
  replace hctl : k'.lists.ctl p = .fork q st := hctl
  have hmove := Kernel.moves hk.wf hc he
  generalize k'.lists = l at hmove hctl
  cases hmove with
  | resched _ hkeep => exact .inl ⟨st, hkeep p q st hctl, hst⟩
  | alloc _ =>
    rcases hset hctl with ⟨-, ⟨⟩⟩ | hctl
    · exact absurd rfl hst
    · exact .inl ⟨st, hctl, hst⟩
  | init _ =>
    rcases hset hctl with ⟨rfl, ⟨⟩⟩ | hctl
    · exact .inr rfl
    · exact .inl ⟨st, hctl, hst⟩
  | copy hinit =>
    rcases hset hctl with ⟨rfl, ⟨⟩⟩ | hctl
    · exact .inl ⟨.init, hinit, nofun⟩
    · exact .inl ⟨st, hctl, hst⟩
  | fail _ _ _ => exact .inl ⟨st, (update_fork (by simp) hctl).2, hst⟩
  | ready _ => exact .inl ⟨st, (update_fork (by simp) hctl).2, hst⟩
  | exit _ => exact .inl ⟨st, hctl, hst⟩
  | wait _ _ hne => exact .inl ⟨st, (update_fork hne hctl).2, hst⟩

/-- A budget comes up only when `allocproc` fills it. -/
theorem counted_step (hk : KRep k k.lists) (hf : k.lists.Forks) (h : kernel.step k act k')
    (hq : Counted k' q) : Counted k q ∨ ∃ p, act = .kallocOk p q := by
  obtain ⟨hc, he, -⟩ := step_krep hk hf h
  rcases hq with halive | ⟨p, st, hctl, hst⟩
  · have hturn : Turn act q (k.tab.proc q).state (k'.tab.proc q).state :=
      turn_step hk.wf hf hc he q
    left
    generalize hst : (k.tab.proc q).state = st at hturn
    generalize (k'.tab.proc q).state = st' at hturn halive
    cases hturn with
    | same =>
      rw [← hst] at halive
      exact .inl halive
    | resched ha _ =>
      rw [← hst] at ha
      exact .inl ha
    | @ready p hact =>
      subst hact
      exact .inr ⟨p, .copied, hc.2, nofun⟩
    | exit => exact halive.elim
    | alloc => exact halive.elim
    | fail => exact halive.elim
    | reap => exact halive.elim
  · rcases fork_step hk hf h hctl hst with ⟨st', hctl', hst'⟩ | hact
    · exact .inl (.inr ⟨p, st', hctl', hst'⟩)
    · exact .inr ⟨p, hact⟩

/-- Budget and account make up `MAX_BUDGET`, and the budget is not used up. -/
structure Balanced (k : Kernel PTable) (g : Slot → Nat) (q : Slot) : Prop where
  sum : (k.tab.proc q).budget.toNat + g q = maxBudget.toNat
  pos : 0 < (k.tab.proc q).budget.toNat

/-- The signed difference of a budget and a length below `2 ^ 31` does not wrap. -/
theorem toInt_sub_of_lt {b d : BitVec 32} (hb : b.toNat ≤ maxBudget.toNat) (hd : d.toNat < 2 ^ 31) :
    (b - d).toInt = (b.toNat : Int) - d.toNat := by
  have hmax : maxBudget.toNat = 200 := rfl
  rw [BitVec.toInt_sub, BitVec.toInt_eq_toNat_of_lt (by omega),
    BitVec.toInt_eq_toNat_of_lt (by omega)]
  exact Int.bmod_eq_of_le (by omega) (by omega)

theorem short_of_leaver (hs : short k act) (hl : leaver act k' = some q) :
    (k.tab.lasted q).toNat < 2 ^ 31 := by
  cases act with
  | yield p => cases hl; exact hs
  | sleep p chan => cases hl; exact hs
  | wait p =>
    dsimp only [leaver] at hl
    split at hl
    · cases hl
      exact hs
    · cases hl
  | _ => cases hl

/-- Who leaves is charged what it used, and the budget is filled up when the account reaches
`MAX_BUDGET`. -/
theorem Balanced.leave (hb : Balanced k g q) (hs : short k act) (hl : leaver act k' = some q) :
    ((k.tab.proc q).budget - k.tab.lasted q).toInt =
      (maxBudget.toNat : Int) - (g q + (k.tab.lasted q).toNat : Nat) ∧
    (Resets k act k' q ↔ maxBudget.toNat ≤ g q + (k.tab.lasted q).toNat) := by
  have hsum := hb.sum
  have hint := toInt_sub_of_lt (by omega : (k.tab.proc q).budget.toNat ≤ _) (short_of_leaver hs hl)
  have htotal : ((k.tab.proc q).budget - k.tab.lasted q).toInt =
      (maxBudget.toNat : Int) - (g q + (k.tab.lasted q).toNat : Nat) := by omega
  refine ⟨htotal, ?_⟩
  rw [resets_of_leaver hl]
  constructor
  · rintro ⟨-, hle⟩
    omega
  · intro hle
    exact ⟨hl, by omega⟩

theorem balanced_step (hk : KRep k k.lists) (hf : k.lists.Forks) (hp : k.lists.tab.PlacedFrom 1)
    (hg : ∀ q, Counted k q → Balanced k g q) (hs : short k act) (h : kernel.step k act k')
    (hq : Counted k' q) : Balanced k' (use k act k' g) q := by
  have hacc := step_accounted hk hf hp h q
  have hmax : 0 < maxBudget.toNat := by decide
  by_cases hres : Resets k act k' q
  · have huse : use k act k' g q = 0 := if_pos hres
    have hbud := hacc.reset hres
    exact ⟨by rw [huse, hbud, Nat.add_zero], by rw [hbud]; exact hmax⟩
  · rcases counted_step hk hf h hq with hq | ⟨p, rfl⟩
    · have hbal := hg q hq
      by_cases hl : leaver act k' = some q
      · have huse : use k act k' g q = g q + (k.tab.lasted q).toNat := by
          unfold use
          rw [if_neg hres, if_pos hl]
        obtain ⟨hint, hiff⟩ := hbal.leave hs hl
        have hlt := mt hiff.2 hres
        have hnat : ((k.tab.proc q).budget - k.tab.lasted q).toNat =
            maxBudget.toNat - (g q + (k.tab.lasted q).toNat) := by
          have := BitVec.toInt_eq_toNat_cond ((k.tab.proc q).budget - k.tab.lasted q)
          have := ((k.tab.proc q).budget - k.tab.lasted q).isLt
          split at * <;> omega
        constructor
        · rw [hacc.charge hres hl, huse, hnat]
          omega
        · rw [hacc.charge hres hl, hnat]
          omega
      · have huse : use k act k' g q = g q := by
          unfold use
          rw [if_neg hres, if_neg hl]
        constructor
        · rw [hacc.stay hres hl, huse]
          exact hbal.sum
        · rw [hacc.stay hres hl]
          exact hbal.pos
    · exact absurd rfl hres

theorem init_balanced (h : kernel.init k) (hq : Counted k q) : Balanced k (fun _ => 0) q := by
  obtain ⟨ticks, hk⟩ := init_krep h
  have hproc : k.tab.proc = (Lists.userinit ticks).proc := hk.rep.proc
  rcases hq with halive | ⟨p, st, hctl, -⟩
  · rw [hproc] at halive
    by_cases hq : q = 0
    · subst hq
      have hbud : ((Lists.userinit ticks).proc 0).budget = maxBudget := rfl
      constructor
      · rw [hproc, hbud]
        rfl
      · rw [hproc, hbud]
        decide
    · rw [userinit_proc_of_ne ticks hq] at halive
      exact halive.elim
  · rw [hk.ctl] at hctl
    cases hctl

theorem accounts_reach (h : accounts.Reach (k, g)) : kernel.Reach k :=
  h.of_ghost.of_restrict

theorem balanced_of_reach (h : accounts.Reach (k, g)) (hq : Counted k q) : Balanced k g q := by
  have key : ∀ x : Kernel PTable × (Slot → Nat), accounts.Reach x →
      ∀ q, Counted x.1 q → Balanced x.1 x.2 q := by
    intro x hx
    induction hx with
    | init h =>
      obtain ⟨hi, hg⟩ := h
      intro q hq
      rw [hg]
      exact init_balanced hi hq
    | step hr h ih =>
      obtain ⟨⟨hs, hstep⟩, hg⟩ := h
      obtain ⟨hk, hf⟩ := reach_krep (accounts_reach hr)
      intro q hq
      rw [hg]
      exact balanced_step hk hf (reach_placedFrom_one (accounts_reach hr)) ih hs hstep hq
  exact key _ h q hq

/-- In every run whose dispatches are short, the budget of a process that is RUNNABLE or SLEEPING
is `MAX_BUDGET` less what it used since the last reset, and lies in `1 .. MAX_BUDGET`; a `yield` or
`sleep` demotes by one level and resets the budget when the total reaches `MAX_BUDGET`, and else
keeps the level and charges. -/
theorem budget_accounting (k : Kernel PTable) (g : Slot → Nat) (h : accounts.Reach (k, g)) :
    (∀ p, (k.tab.proc p).state = .runnable ∨ (k.tab.proc p).state = .sleeping →
      (k.tab.proc p).budget.toInt = maxBudget.toInt - g p ∧
      1 ≤ (k.tab.proc p).budget.toInt ∧ (k.tab.proc p).budget.toInt ≤ maxBudget.toInt) ∧
    ∀ act k' p, short k act → kernel.step k act k' → leaver act k' = some p →
      if maxBudget.toInt ≤ g p + (k.tab.lasted p).toNat then
        (k'.tab.proc p).priority = min ((k.tab.proc p).priority + 1) maxPrio ∧
        (k'.tab.proc p).budget = maxBudget ∧ use k act k' g p = 0
      else
        (k'.tab.proc p).priority = (k.tab.proc p).priority ∧
        (k'.tab.proc p).budget.toInt = maxBudget.toInt - (g p + (k.tab.lasted p).toNat) ∧
        use k act k' g p = g p + (k.tab.lasted p).toNat := by
  have hmax : maxBudget.toInt = maxBudget.toNat := rfl
  have hr := accounts_reach h
  obtain ⟨hk, hf⟩ := reach_krep hr
  rw [hmax]
  constructor
  · intro p hp
    have halive : (k.tab.proc p).state.alive := by
      rcases hp with hp | hp <;> rw [hp] <;> trivial
    have hbal := balanced_of_reach h (.inl halive)
    have hsum := hbal.sum
    have hpos := hbal.pos
    have h200 : maxBudget.toNat = 200 := rfl
    have hint := BitVec.toInt_eq_toNat_of_lt
      (show 2 * (k.tab.proc p).budget.toNat < 2 ^ 32 by omega)
    omega
  · intro act k' p hs hstep hl
    have hch := step_charged hk hf hstep hl
    have hrun : (k.tab.proc p).state = .running := by
      have hc := hstep.1
      cases act with
      | yield p => cases hl; exact hc.1
      | sleep p chan => cases hl; exact hc.1
      | wait p =>
        dsimp only [leaver] at hl
        split at hl
        · cases hl
          exact hc.1
        · cases hl
      | _ => cases hl
    have hbal := balanced_of_reach (q := p) h (.inl (by rw [hrun]; trivial))
    obtain ⟨hint, hiff⟩ := hbal.leave hs hl
    have hprio := charge_priority k.tab.ticks (hk.wf.prio p)
    have hbud := hch.budget
    rw [charge_budget] at hbud
    split
    · next hle =>
      have hle : maxBudget.toNat ≤ g p + (k.tab.lasted p).toNat := by omega
      have hneg : ((k.tab.proc p).budget - k.tab.lasted p).toInt ≤ 0 := by omega
      refine ⟨hch.priority.trans (hprio.trans (if_pos hneg)), hbud.trans (if_pos hneg), ?_⟩
      exact if_pos (hiff.2 hle)
    · next hlt =>
      have hlt : ¬ maxBudget.toNat ≤ g p + (k.tab.lasted p).toNat := by omega
      have hpos : ¬ ((k.tab.proc p).budget - k.tab.lasted p).toInt ≤ 0 := by omega
      refine ⟨hch.priority.trans (hprio.trans (if_neg hpos)), ?_, ?_⟩
      · rw [hbud.trans (if_neg hpos)]
        show ((k.tab.proc p).budget - k.tab.lasted p).toInt = _
        omega
      · unfold use
        rw [if_neg (mt hiff.1 hlt), if_pos hl]

/-- Init runs for three ticks and yields. -/
theorem budget_accounting_yield : ∃ k g, accounts.Reach (k, g) ∧ (k.tab.proc 0).state = .runnable ∧
    (k.tab.proc 0).budget.toInt = 197 ∧ g 0 = 3 := by
  obtain ⟨k, hk, hP⟩ := Kernel.exists_reach_restrict short
    [.scheduler, .tick, .tick, .tick, .yield 0]
    (P := fun k => decide ((k.tab.proc 0).state = .runnable ∧ (k.tab.proc 0).budget.toInt = 197))
    (by decide +kernel)
  obtain ⟨g, hg⟩ := hk.to_ghost (fun _ => 0) use
  obtain ⟨hst, hbud⟩ := of_decide_eq_true hP
  have hmax : maxBudget.toInt = 200 := by decide
  have hsum := ((budget_accounting k g hg).1 0 (.inl hst)).1
  exact ⟨k, g, hg, hst, hbud, by omega⟩

end

end Xv6.Procs
