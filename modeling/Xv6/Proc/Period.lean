import Xv6.Proc.Budget

/-!
# The promotion period

`scheduler` compares two counters that wrap: `ticks` and `PromoteAtTime`.  Beside the kernel runs a
clock that does not wrap, of which `ticks` shows the low 32 bits, and the time of the last
promotion.  A promotion sets `PromoteAtTime` to `ticks + TICKS_TO_PROMOTE`; once that sum wraps, the
comparison holds at once and every pass up to the wrap of `ticks` promotes again.
-/

namespace Xv6.Procs

/-! ## Who writes the counters -/

theorem any_unscheduled : Unscheduled fun _ _ => True :=
  ⟨⟨fun _ => trivial, fun _ _ _ _ _ => trivial, fun _ _ => trivial, fun _ _ => trivial,
    fun _ _ => trivial, fun _ _ _ _ _ => trivial⟩, fun _ _ _ => trivial, fun _ _ => trivial,
    fun _ _ _ _ _ _ => trivial⟩

namespace Lists

theorem setpriority_counters {a : Lists} (hw : a.WF) (pID : BitVec 32) (prio : Nat) :
    Post (fun _ => True) (fun r => Keeps (fun _ _ => True) a r.2) (a.setpriority pID prio) := by
  have hR := any_unscheduled.toMinor
  refine setpriority_post hw pID prio (fun _ => .refl hR a) ?_ ?_
  · intro i p _ _ _
    exact requeueAt_post (fun _ => .requeue hR trivial) fun _ => trivial
  · intro p _ _ _
    exact .modify hR trivial

end Lists

section
variable {k k' : Kernel PTable} {act : Action}

/-- What an action does to the two counters. -/
structure Counters (k : Kernel PTable) (act : Action) (k' : Kernel PTable) : Prop where
  ticks : k'.tab.ticks = if act = .tick then k.tab.ticks + 1 else k.tab.ticks
  time : k'.tab.promoteAtTime = if act = .scheduler ∧ k.tab.Due then
    k.tab.ticks + ticksToPromote else k.tab.promoteAtTime

theorem step_counters (hk : KRep k k.lists) (hf : k.lists.Forks)
    (hp : k.lists.tab.PlacedFrom 1) (h : kernel.step k act k') : Counters k act k' := by
  obtain ⟨hc, he, -⟩ := step_krep hk hf h
  have hR := any_unscheduled.toMinor
  -- every other action leaves both alone
  have hquiet : ∀ l : Kernel Lists, act ≠ .tick → act ≠ .scheduler →
      Except.ok (ε := Panic) l = .ok k'.lists →
      Lists.Keeps (fun _ _ => True) k.lists.tab l.tab → Counters k act k' := by
    intro l htick hsched hl hkeep
    rw [Except.ok.inj hl] at hkeep
    constructor
    · rw [if_neg htick]
      exact hkeep.ticks
    · rw [if_neg fun h => hsched h.1]
      exact hkeep.time
  cases act with
  | tick =>
    have hk' : k'.lists = _ := (Except.ok.inj he).symm
    constructor
    · rw [if_pos rfl]
      exact congrArg (fun l => l.tab.ticks) hk'
    · rw [if_neg fun h => by cases h.1]
      exact congrArg (fun l => l.tab.promoteAtTime) hk'
  | scheduler =>
    obtain ⟨r, hr, hk'⟩ := map_ok he
    obtain ⟨hticks, hdue, hnot, -⟩ := Lists.scheduler_fields hk.wf hp hr
    have htab : k'.tab.lists = r.2 := congrArg (Kernel.tab (τ := Lists)) hk'
    constructor
    · rw [if_neg nofun]
      exact (congrArg (fun a : Lists => a.ticks) htab).trans hticks
    · have htime : k'.tab.promoteAtTime = r.2.promoteAtTime :=
        congrArg (fun a : Lists => a.promoteAtTime) htab
      rw [htime]
      by_cases hd : k.tab.Due
      · rw [if_pos ⟨rfl, hd⟩]
        exact hdue hd
      · rw [if_neg fun h => hd h.2]
        exact hnot hd
  | wakeup _ | sleepReturn _ | kallocFail _ _ | copyuvmFail _ _ | copyuvmOk _ _ | forkReady _ _
  | exit _ => exact hquiet _ nofun nofun rfl (quiet_step hR he trivial)
  | forkAlloc p =>
    have hkeep := Lists.allocproc_keeps hR (fun _ _ => trivial) k.lists.tab
    rw [← Kernel.execL_forkAlloc he] at hkeep
    exact hquiet _ nofun nofun rfl hkeep
  | yield p | sleep p chan | trapKill p | kallocOk p np =>
    exact hquiet _ nofun nofun he ⟨rfl, rfl, fun _ => trivial⟩
  | wait p => exact hquiet _ nofun nofun he (Lists.waitTurn_keeps any_unscheduled _ p _ fun _ => trivial)
  | kill p pid => exact hquiet _ nofun nofun he (Lists.kill_keeps hR _ pid fun _ _ => trivial)
  | setpriority p pID prio =>
    obtain ⟨r, hr, hk'⟩ := map_ok he
    have hkeep := (Lists.setpriority_counters hk.wf pID prio).of_ok hr
    exact hquiet _ nofun nofun (congrArg _ hk'.symm) hkeep

end

/-! ## The clock -/

/-- The real tick count and the one at the last promotion. -/
structure Clock where
  real : Nat
  last : Option Nat

/-- A tick, or a pass that runs `promoteProcs`. -/
def Clock.after (c : Clock) (k : Kernel PTable) : Action → Clock
  | .tick => { c with real := c.real + 1 }
  | .scheduler => if k.tab.Due then { c with last := some c.real } else c
  | _ => c

/-- The process system, booted at any real tick count, of which the kernel sees the low bits. -/
def clocked : System (Kernel PTable × Clock) Action where
  init x := kernel.init x.1 ∧ x.1.tab.ticks = BitVec.ofNat 32 x.2.real ∧ x.2.last = none
  step x act y := kernel.step x.1 act y.1 ∧ y.2 = x.2.after x.1 act

/-- A pass that promotes comes before the last `TICKS_TO_PROMOTE` ticks before the wrap. -/
def early (x : Kernel PTable × Clock) (act : Action) : Prop :=
  act = .scheduler → x.1.tab.Due → x.1.tab.ticks.toNat + ticksToPromote.toNat < 2 ^ 32

theorem clocked_kernel {x : Kernel PTable × Clock} (h : clocked.Reach x) : kernel.Reach x.1 := by
  induction h with
  | init h => exact .init h.1
  | step _ h ih => exact .step ih h.1

theorem clocked_counters {x y : Kernel PTable × Clock} {act : Action} (hr : clocked.Reach x)
    (h : clocked.step x act y) : Counters x.1 act y.1 := by
  obtain ⟨hk, hf⟩ := reach_krep (clocked_kernel hr)
  exact step_counters hk hf (reach_placedFrom_one (clocked_kernel hr)) h.1

theorem clocked_ticks {x : Kernel PTable × Clock} (h : clocked.Reach x) :
    x.1.tab.ticks.toNat = x.2.real % 2 ^ 32 := by
  induction h with
  | init h =>
    rw [h.2.1]
    exact BitVec.toNat_ofNat _ _
  | @step x act y hr h ih =>
    have hticks := (clocked_counters hr h).ticks
    rw [hticks, h.2]
    cases act with
    | tick =>
      rw [if_pos rfl, BitVec.toNat_add, ih]
      show (x.2.real % 2 ^ 32 + 1) % 2 ^ 32 = (x.2.real + 1) % 2 ^ 32
      omega
    | scheduler =>
      rw [if_neg nofun, ih]
      unfold Clock.after
      dsimp only
      split <;> rfl
    | _ =>
      rw [if_neg nofun, ih]
      rfl

/-! ## Concrete runs -/

instance (x : Kernel PTable × Clock) (act : Action) : Decidable (early x act) :=
  inferInstanceAs (Decidable (_ → _))

/-- The state after `userinit`, booted at the real tick count `t`. -/
def Clock.start (t : Nat) : Option (Kernel PTable × Clock) :=
  match (PTable.boot (BitVec.ofNat 32 t)).userinit with
  | .ok s => some (⟨s, fun _ => .idle⟩, ⟨t, none⟩)
  | .error _ => none

def Clock.next (ok : Kernel PTable × Clock → Action → Prop) [∀ x act, Decidable (ok x act)]
    (x : Kernel PTable × Clock) (act : Action) : Option (Kernel PTable × Clock) :=
  if ok x act ∧ x.1.can act then
    match x.1.exec act with
    | .ok k => some (k, x.2.after x.1 act)
    | .error _ => none
  else none

theorem clocked_run (ok : Kernel PTable × Clock → Action → Prop) [∀ x act, Decidable (ok x act)]
    (t : Nat) (acts : List Action) {P : Kernel PTable × Clock → Bool}
    (h : ((Clock.start t).bind (System.follow (Clock.next ok) acts)).any P = true) :
    ∃ x, (clocked.restrict ok).Reach x ∧ P x = true := by
  obtain ⟨x, hx, hP⟩ := (Option.any_eq_true _ _).1 h
  obtain ⟨x₀, hx₀, hrun⟩ := Option.bind_eq_some_iff.1 hx
  have hinit : clocked.init x₀ := by
    unfold Clock.start at hx₀
    split at hx₀
    · next s hs =>
      cases hx₀
      obtain ⟨s', hs', hr, -⟩ := userinit_sim (BitVec.ofNat 32 t)
      cases hs.symm.trans hs'
      exact ⟨⟨_, hs, rfl⟩, congrArg Globals.ticks hr.globals, rfl⟩
    · cases hx₀
  refine ⟨x, .follow ?_ (.init hinit) hrun, hP⟩
  intro x act y hy
  unfold Clock.next at hy
  split at hy
  · next hok =>
    split at hy
    · next k hk =>
      cases hy
      exact ⟨act, hok.1, ⟨hok.2, hk⟩, rfl⟩
    · cases hy
  · cases hy

section
variable {x y : Kernel PTable × Clock} {act : Action} {t : Nat}

/-- A step promotes, or leaves both times alone while the clock goes on. -/
theorem clocked_cases (hr : clocked.Reach x) (h : clocked.step x act y) :
    (act = .scheduler ∧ x.1.tab.Due ∧ y.2 = ⟨x.2.real, some x.2.real⟩ ∧
      y.1.tab.promoteAtTime = x.1.tab.ticks + ticksToPromote) ∨
    (¬ (act = .scheduler ∧ x.1.tab.Due) ∧ y.2.last = x.2.last ∧ x.2.real ≤ y.2.real ∧
      y.1.tab.promoteAtTime = x.1.tab.promoteAtTime) := by
  have htime := (clocked_counters hr h).time
  by_cases hdue : act = .scheduler ∧ x.1.tab.Due
  · left
    rw [if_pos hdue] at htime
    obtain ⟨rfl, hdue⟩ := hdue
    refine ⟨rfl, hdue, ?_, htime⟩
    rw [h.2]
    exact if_pos hdue
  · right
    rw [if_neg hdue] at htime
    rw [h.2]
    cases act with
    | tick => exact ⟨hdue, rfl, Nat.le_succ _, htime⟩
    | scheduler =>
      have hnot : ¬ x.1.tab.Due := fun hd => hdue ⟨rfl, hd⟩
      have hafter : x.2.after x.1 .scheduler = x.2 := if_neg hnot
      rw [hafter]
      exact ⟨hdue, rfl, Nat.le_refl _, htime⟩
    | _ => exact ⟨hdue, rfl, Nat.le_refl _, htime⟩

theorem last_le (h : clocked.Reach x) (ht : x.2.last = some t) : t ≤ x.2.real := by
  induction h generalizing t with
  | init h =>
    have hlast := h.2.2
    rw [ht] at hlast
    cases hlast
  | step hr h ih =>
    rcases clocked_cases hr h with ⟨-, -, hclock, -⟩ | ⟨-, hlast, hreal, -⟩
    · rw [hclock] at ht ⊢
      cases ht
      exact Nat.le_refl _
    · rw [hlast] at ht
      exact (ih ht).trans hreal

/-- The next promotion stands `TICKS_TO_PROMOTE` after the one at `t`, and has not wrapped. -/
structure Spaced (x : Kernel PTable × Clock) (t : Nat) : Prop where
  past : t ≤ x.2.real
  time : x.1.tab.promoteAtTime.toNat = t % 2 ^ 32 + ticksToPromote.toNat

theorem Spaced.gap (hr : clocked.Reach x) (h : Spaced x t) (hdue : x.1.tab.Due) :
    t + ticksToPromote.toNat ≤ x.2.real := by
  have hle : x.1.tab.promoteAtTime.toNat ≤ x.1.tab.ticks.toNat := hdue
  rw [clocked_ticks hr, h.time] at hle
  -- fewer ticks later the low bits are at most that much larger, wrapped or not
  by_contra hlt
  have hpast := h.past
  have hlow : x.2.real % 2 ^ 32 ≤ t % 2 ^ 32 + (x.2.real - t) := by
    calc x.2.real % 2 ^ 32 = (t + (x.2.real - t)) % 2 ^ 32 := by rw [Nat.add_sub_cancel' hpast]
      _ = (t % 2 ^ 32 + (x.2.real - t)) % 2 ^ 32 := (Nat.mod_add_mod ..).symm
      _ ≤ t % 2 ^ 32 + (x.2.real - t) := Nat.mod_le ..
  omega

theorem Spaced.keep (h : Spaced x t) (hreal : x.2.real ≤ y.2.real)
    (htime : y.1.tab.promoteAtTime = x.1.tab.promoteAtTime) : Spaced y t :=
  ⟨h.past.trans hreal, by rw [htime]; exact h.time⟩

/-- A pass that promotes early enough sets the next one. -/
theorem Spaced.of_early (hr : clocked.Reach x)
    (hearly : x.1.tab.ticks.toNat + ticksToPromote.toNat < 2 ^ 32) (hreal : y.2.real = x.2.real)
    (htime : y.1.tab.promoteAtTime = x.1.tab.ticks + ticksToPromote) : Spaced y x.2.real := by
  constructor
  · exact Nat.le_of_eq hreal.symm
  · rw [htime, BitVec.toNat_add, Nat.mod_eq_of_lt hearly, clocked_ticks hr]

theorem spaced_of_early (h : (clocked.restrict early).Reach x) (ht : x.2.last = some t) :
    Spaced x t := by
  induction h generalizing t with
  | init h =>
    have hlast := h.2.2
    rw [ht] at hlast
    cases hlast
  | @step x act y hr h ih =>
    obtain ⟨hearly, hstep⟩ := h
    have hx := hr.of_restrict
    rcases clocked_cases hx hstep with ⟨hact, hdue, hclock, htime⟩ | ⟨-, hlast, hreal, htime⟩
    · rw [hclock] at ht
      cases ht
      exact .of_early hx (hearly hact hdue) (by rw [hclock]) htime
    · rw [hlast] at ht
      exact (ih ht).keep hreal htime

/-- From an early pass on: the next promotion is still to come, or a later one was the last. -/
theorem spaced_from (hx : clocked.Reach x) (hxt : Spaced x t)
    (h : (clocked.startAt x).Reach y) : Spaced y t ∨ ∃ u, y.2.last = some u ∧ t < u := by
  induction h with
  | init h =>
    cases h
    exact .inl hxt
  | @step y act z hr h ih =>
    have hy := hx.of_startAt hr
    rcases clocked_cases hy h with ⟨-, hdue, hclock, -⟩ | ⟨-, hlast, hreal, htime⟩
    · right
      refine ⟨y.2.real, by rw [hclock], ?_⟩
      rcases ih with hs | ⟨u, hu, htu⟩
      · have hgap := hs.gap hy hdue
        have hpos : 0 < ticksToPromote.toNat := by decide
        omega
      · exact htu.trans_le (last_le hy hu)
    · rcases ih with hs | ⟨u, hu, htu⟩
      · exact .inl (hs.keep hreal htime)
      · exact .inr ⟨u, hlast.trans hu, htu⟩

/-- In every run whose promotions come before the last `TICKS_TO_PROMOTE` ticks before a wrap, a
pass runs `promoteProcs` only `TICKS_TO_PROMOTE` real ticks after the last one that did; and the
promotion that follows a given one, whatever happens in between, keeps that distance exactly if the
given one came so early. -/
theorem promotion_period (x : Kernel PTable × Clock) :
    ((clocked.restrict early).Reach x → x.1.tab.Due → ∀ t, x.2.last = some t →
      t + ticksToPromote.toNat ≤ x.2.real) ∧
    (clocked.Reach x → x.1.tab.Due → ∀ y, clocked.step x .scheduler y →
      ((∀ z, (clocked.startAt y).Reach z → z.1.tab.Due → z.2.last = some x.2.real →
        x.2.real + ticksToPromote.toNat ≤ z.2.real) ↔ early x .scheduler)) := by
  constructor
  · intro h hdue t ht
    exact (spaced_of_early h ht).gap h.of_restrict hdue
  · intro hx hdue y hstep
    have hy : clocked.Reach y := .step hx hstep
    rcases clocked_cases hx hstep with ⟨-, -, hclock, htime⟩ | ⟨hnot, -⟩
    · constructor
      · intro hgap _ _
        -- a sum that wraps is at most `ticks`, so the pass that follows at once is due
        by_contra hlate
        have hbelow := x.1.tab.ticks.isLt
        have hplus : ticksToPromote.toNat = 800 := rfl
        have hdue' : y.1.tab.Due := by
          show y.1.tab.promoteAtTime.toNat ≤ y.1.tab.ticks.toNat
          rw [htime, clocked_ticks hy, hclock, BitVec.toNat_add]
          have hticks := clocked_ticks hx
          show (x.1.tab.ticks.toNat + ticksToPromote.toNat) % 2 ^ 32 ≤ x.2.real % 2 ^ 32
          omega
        have hsoon := hgap y (.init rfl) hdue' (by rw [hclock])
        rw [hclock] at hsoon
        dsimp only at hsoon
        omega
      · intro hearly z hz hduez hlast
        have hs : Spaced y x.2.real := .of_early hx (hearly rfl hdue) (by rw [hclock]) htime
        rcases spaced_from hy hs hz with hs | ⟨u, hu, hlt⟩
        · exact hs.gap (hy.of_startAt hz) hduez
        · rw [hlast] at hu
          cases hu
          exact absurd hlt (Nat.lt_irrefl _)
    · exact absurd ⟨rfl, hdue⟩ hnot

end

/-- Booted at tick 0, the first pass promotes at 800 and the next can at 1600. -/
theorem promotion_period_first : ∃ x, (clocked.restrict early).Reach x ∧ x.1.tab.Due ∧
    x.2.last = some 800 ∧ 1600 ≤ x.2.real := by
  obtain ⟨x, hx, hP⟩ := clocked_run early 0
    (List.replicate 800 .tick ++ [.scheduler] ++ List.replicate 800 .tick)
    (P := fun x => decide (x.1.tab.Due ∧ x.2.last = some 800)) (by decide +kernel)
  obtain ⟨hdue, hlast⟩ := of_decide_eq_true hP
  exact ⟨x, hx, hdue, hlast, (promotion_period x).1 hx hdue 800 hlast⟩

/-- Booted 400 ticks before the wrap, two passes at the same tick both promote. -/
theorem promotes_twice_at_wrap : ∃ x, clocked.Reach x ∧ x.2.real = 2 ^ 32 - 400 ∧
    x.2.last = some (2 ^ 32 - 400) ∧ x.1.tab.Due := by
  obtain ⟨x, hx, hP⟩ := clocked_run (fun _ _ => True) (2 ^ 32 - 400) [.scheduler]
    (P := fun x => decide (x.2.real = 2 ^ 32 - 400 ∧ x.2.last = some (2 ^ 32 - 400) ∧ x.1.tab.Due))
    (by decide +kernel)
  exact ⟨x, hx.of_restrict, of_decide_eq_true hP⟩

end Xv6.Procs
