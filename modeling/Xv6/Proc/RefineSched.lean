import Xv6.Proc.RefineSearch

/-!
# The operations one level up: setpriority, promoteProcs, the scheduler, userinit

These call `stateListRemove` and `stateListAdd` directly and check with
`assertPrio` that a process leaves the level of its priority.  `SimE r ra` says
that the pointer version panics exactly as the list version does, and otherwise
comes back with the same value and a table that spells out its lists.
-/

namespace Xv6.Procs

open Function List

variable {p : Slot} {prio : Nat}

def SimE {β : Type} (r : Except Panic (β × PTable)) (ra : Except Panic (β × Lists)) : Prop :=
  match ra with
  | .error e => r = .error e
  | .ok (b, a) => ∃ s, r = .ok (b, s) ∧ Rep s a ∧ a.WF

/-- A loop whose body simulates, as long as it goes on from lists with `P`, simulates. -/
theorem forIn_simE {α β : Type} {body : α → PTable → Except Panic (Option β × PTable)}
    {bodyA : α → Lists → Except Panic (Option β × Lists)} {P : Lists → Prop} (l : List α)
    (hb : ∀ x ∈ l, ∀ s a, Rep s a → a.WF → P a → SimE (body x s) (bodyA x a))
    (hP : ∀ x ∈ l, ∀ a a', P a → bodyA x a = .ok (none, a') → P a') (s : PTable) (a : Lists)
    (h : Rep s a) (hw : a.WF) (ha : P a) : SimE (forIn body l s) (forIn bodyA l a) := by
  induction l generalizing s a with
  | nil => exact ⟨s, rfl, h, hw⟩
  | cons x l ih =>
    have hx := hb x mem_cons_self s a h hw ha
    simp only [forIn]
    cases hA : bodyA x a with
    | error e =>
      rw [hA] at hx
      simp only [SimE] at hx ⊢
      rw [hx]
    | ok v =>
      obtain ⟨v, a'⟩ := v
      rw [hA] at hx
      obtain ⟨s', hs, h', w'⟩ := hx
      rw [hs]
      cases v with
      | some b => exact ⟨s', rfl, h', w'⟩
      | none =>
        exact ih (fun y hy => hb y (mem_cons_of_mem x hy))
          (fun y hy => hP y (mem_cons_of_mem x hy)) s' a' h' w'
          (hP x mem_cons_self a a' ha hA)

namespace Lists

/-- Move `p` from level `i` to `dst`; panic when `i` is not the level of its priority. -/
def requeueAt (i : Nat) (dst : ListId) (p : Slot) (f : Proc → Proc) (a : Lists) :
    Except Panic Lists :=
  if (a.proc p).priority ≠ i then .error .assertPrio else .ok (a.requeue (.ready i) dst p f)

/-! ## setpriority -/

def setprioReady (i : Nat) (pID : BitVec 32) (prio : Nat) (p : Slot) (a : Lists) :
    Except Panic (Option Int × Lists) :=
  if (a.proc p).pid = pID then
    if (a.proc p).priority ≠ prio then
      (a.requeueAt i (.ready prio) p fun q => { q with priority := prio, budget := maxBudget }).map
        fun a => (some 0, a)
    else .ok (some 0, a)
  else .ok (none, a)

/-- Set the priority of the first process of the list that has the pid. -/
def setprioIn (id : ListId) (pID : BitVec 32) (prio : Nat) (a : Lists) : Option Int × Lists :=
  match (a.list id).find? fun p => decide ((a.proc p).pid = pID) with
  | none => (none, a)
  | some p =>
    (some 0, if (a.proc p).priority ≠ prio then
      a.modify p fun q => { q with priority := prio, budget := maxBudget } else a)

def setpriority (pID : BitVec 32) (prio : Nat) (a : Lists) : Except Panic (Int × Lists) := do
  let (r, a) ← forIn (fun i a => forIn (setprioReady i pID prio) (a.list (.ready i)) a)
    (List.range (maxPrio + 1)) a
  match r with
  | some v => .ok (v, a)
  | none =>
    match a.setprioIn .sleep pID prio with
    | (some v, a) => .ok (v, a)
    | (none, a) => .ok (PTable.orElse (-1) (a.setprioIn .running pID prio))

/-! ## promoteProcs and the scheduler -/

/-- The whole level moves up, from its head on. -/
def promoteLevel (i : Nat) (a : Lists) : Except Panic Lists :=
  (a.list (.ready i)).foldlM (fun a p =>
    a.requeueAt i (.ready (i - 1)) p fun q =>
      { q with priority := q.priority - 1, budget := maxBudget }) a

def promote (q : Proc) : Proc :=
  { q with priority := if q.priority > 0 then q.priority - 1 else q.priority, budget := maxBudget }

def promoteProcs (a : Lists) : Except Panic Lists := do
  let a ← (List.range' 1 maxPrio).foldlM (fun a i => a.promoteLevel i) a
  let a := a.mapSlots (a.list .sleep) promote
  .ok (a.mapSlots (a.list .running) promote)

def dispatch (i : Nat) (a : Lists) : Except Panic (Option Slot × Lists) :=
  match (a.list (.ready i)).head? with
  | none => .ok (none, a)
  | some p =>
    (a.requeueAt i .running p fun q => { q with state := .running }).map fun a =>
      (some p, a.modify p fun q => { q with cpuTicksIn := a.ticks })

def scheduler (a : Lists) : Except Panic (Option Slot × Lists) := do
  let a ← (if a.ticks ≥ a.promoteAtTime then do
      let a ← a.promoteProcs
      .ok { a with promoteAtTime := a.ticks + ticksToPromote }
    else .ok a)
  forIn dispatch (List.range (maxPrio + 1)) a

end Lists

section
variable {s : PTable} {a : Lists}
variable {i : Nat}

/-- `assertPrio` between removal and append. -/
theorem requeueAt_sim (h : Rep s a) (hw : a.WF) (hp : p ∈ a.list (.ready i))
    (dst : ListId) (f : Proc → Proc) (hst : (f (a.proc p)).state = dst.state)
    (hpr : (f (a.proc p)).priority ≤ maxPrio) (hdst : ∀ j, dst = .ready j → j ≤ maxPrio) :
    ∃ s₁, s.stateListRemove (.ready i) p = .ok (0, s₁) ∧ s₁.proc = a.proc ∧
      s₁.assertState p .runnable = .ok () ∧
      match a.requeueAt i dst p f with
      | .error e => s₁.assertPrio p i = .error e
      | .ok a' => s₁.assertPrio p i = .ok () ∧
        ∃ s₂, (s₁.modify p f).stateListAdd dst p = .ok (0, s₂) ∧ Rep s₂ a' ∧ a'.WF := by
  obtain ⟨s₁, s₂, h₁, hproc, -, h₂, r₂, -⟩ := requeue_rep h hp dst f
  refine ⟨s₁, h₁, hproc, ?_, ?_⟩
  · have := hw.state _ p hp
    simp only [ListId.state] at this
    simp [PTable.assertState, hproc, this]
  · unfold Lists.requeueAt PTable.assertPrio
    rw [hproc]
    by_cases hi : (a.proc p).priority = i
    · simp only [hi, ne_eq, not_true_eq_false, if_false, true_and]
      exact ⟨s₂, h₂, r₂, hw.requeue hp hst hpr hdst⟩
    · simp [hi]

theorem setprioReady_simE (h : Rep s a) (hw : a.WF) (hp : p ∈ a.list (.ready i))
    (pID : BitVec 32) (hprio : prio ≤ maxPrio) :
    SimE (s.setprioReady i pID prio p) (a.setprioReady i pID prio p) := by
  unfold PTable.setprioReady Lists.setprioReady
  rw [h.proc]
  split
  · split
    · obtain ⟨s₁, h₁, hproc, hst, hreq⟩ := requeueAt_sim h hw hp (.ready prio)
        (fun q => { q with priority := prio, budget := maxBudget })
        (hw.state (.ready i) p hp) hprio (by rintro j ⟨⟩; exact hprio)
      simp only [h₁, hst, bind, Except.bind]
      cases hA : a.requeueAt i (.ready prio) p fun q =>
          { q with priority := prio, budget := maxBudget } with
      | error e =>
        rw [hA] at hreq
        simp only at hreq
        simp [SimE, hreq, Except.map]
      | ok a' =>
        rw [hA] at hreq
        obtain ⟨hpr, s₂, h₂, r₂, w₂⟩ := hreq
        refine ⟨s₂, ?_, r₂, w₂⟩
        simp [hpr, PTable.modify, update_self] at h₂ ⊢
        simp [h₂]
    · exact ⟨s, rfl, h, hw⟩
  · exact ⟨s, rfl, h, hw⟩

variable {pID : BitVec 32}

theorem setprioReady_none {t t' : PTable}
    (ht : t.setprioReady i pID prio p = .ok (none, t')) : t' = t := by
  unfold PTable.setprioReady at ht
  split at ht
  · split at ht
    · simp only [bind, Except.bind] at ht
      split at ht
      · cases ht
      · split at ht
        · cases ht
        · split at ht
          · cases ht
          · split at ht
            · cases ht
            · split at ht
              · cases ht
              · split at ht <;> simp at ht
    · simp at ht
  · simpa using ht.symm

theorem setprioReadyA_none {a a' : Lists}
    (ha : a.setprioReady i pID prio p = .ok (none, a')) : a' = a := by
  unfold Lists.setprioReady at ha
  split at ha
  · split at ha
    · unfold Except.map at ha
      split at ha <;> simp at ha
    · simp at ha
  · simpa using ha.symm

/-- The ready loops of `setpriority`. -/
theorem setprioLevels_simE (h : Rep s a) (hw : a.WF) (pID : BitVec 32) (hprio : prio ≤ maxPrio) :
    SimE (PTable.forReady (fun i s => PTable.forList (.ready i) (PTable.setprioReady i pID prio) s) s)
      (forIn (fun i a => forIn (Lists.setprioReady i pID prio) (a.list (.ready i)) a)
        (List.range (maxPrio + 1)) a) := by
  refine forIn_simE (P := fun _ => True) _ ?_ (fun _ _ _ _ _ _ => trivial) s a h hw trivial
  intro i _ s a h hw _
  rw [forList_eq h (.ready i) _ fun p t t' ht => by rw [setprioReady_none ht]]
  refine forIn_simE (P := fun b => b = a) _ ?_ ?_ s a h hw rfl
  · rintro p hp t b ht wt rfl
    exact setprioReady_simE ht wt hp pID hprio
  · rintro p _ b b' rfl hb
    exact setprioReadyA_none hb

theorem setprioBody_none {state : ProcState} {t t' : PTable}
    (ht : PTable.setprioBody state pID prio p t = .ok (none, t')) : t' = t := by
  unfold PTable.setprioBody at ht
  split at ht
  · split at ht
    · simp only [bind, Except.bind] at ht
      split at ht <;> simp at ht
    · simp at ht
  · simpa using ht.symm

theorem setprioIn_sim (h : Rep s a) (hw : a.WF) (id : ListId) (pID : BitVec 32)
    (hprio : prio ≤ maxPrio) :
    ∃ s', s.forList id (PTable.setprioBody id.state pID prio) =
        .ok ((a.setprioIn id pID prio).1, s') ∧
      Rep s' (a.setprioIn id pID prio).2 ∧ (a.setprioIn id pID prio).2.WF := by
  rw [forList_eq h id _ fun p t t' ht => by rw [setprioBody_none ht]]
  unfold Lists.setprioIn
  cases hf : (a.list id).find? fun p => decide ((a.proc p).pid = pID) with
  | none =>
    have hskip : ∀ p ∈ a.list id, PTable.setprioBody id.state pID prio p s = .ok (none, s) := by
      intro p hp
      have := find?_eq_none.1 hf p hp
      unfold PTable.setprioBody
      rw [h.proc]
      exact if_neg (by simpa using this)
    have := forIn_skip _ (a.list id) [] s hskip
    rw [append_nil] at this
    rw [this]
    exact ⟨s, rfl, h, hw⟩
  | some p =>
    obtain ⟨hp, l₁, l₂, hl, hno⟩ := find?_eq_some_iff_append.1 hf
    have hmem : p ∈ a.list id := by rw [hl]; simp
    have hst := hw.state id p hmem
    rw [hl, forIn_skip _ l₁ _ s (by
      intro q hq
      have := hno q hq
      unfold PTable.setprioBody
      rw [h.proc]
      exact if_neg (by simpa using this)), forIn]
    unfold PTable.setprioBody PTable.assertState
    rw [h.proc]
    simp only [show (a.proc p).pid = pID by simpa using hp, hst, if_true, ne_eq, not_true_eq_false,
      if_false, bind, Except.bind]
    by_cases hpr : (a.proc p).priority = prio
    · simp only [hpr, not_true_eq_false, if_false]
      exact ⟨s, rfl, h, hw⟩
    · simp only [hpr, not_false_eq_true, if_true]
      exact ⟨_, rfl, modify_sim h hw rfl hprio⟩

theorem setpriority_simE (h : Rep s a) (hw : a.WF) (pID : BitVec 32) (hprio : prio ≤ maxPrio) :
    SimE (s.setpriority pID prio) (a.setpriority pID prio) := by
  have hl := setprioLevels_simE h hw pID hprio
  unfold PTable.setpriority Lists.setpriority
  cases hA : forIn (fun i a => forIn (Lists.setprioReady i pID prio) (a.list (.ready i)) a)
      (List.range (maxPrio + 1)) a with
  | error e =>
    rw [hA] at hl
    simp only [SimE] at hl
    rw [hl]
    rfl
  | ok v =>
    obtain ⟨v, a₁⟩ := v
    rw [hA] at hl
    obtain ⟨s₁, hs₁, h₁, w₁⟩ := hl
    rw [hs₁]
    simp only [bind, Except.bind]
    cases v with
    | some v => exact ⟨s₁, rfl, h₁, w₁⟩
    | none =>
      obtain ⟨s₂, hs₂, h₂, w₂⟩ := setprioIn_sim h₁ w₁ .sleep pID hprio
      simp only [ListId.state] at hs₂
      simp only [hs₂]
      cases hv : a₁.setprioIn .sleep pID prio with
      | mk v a₂ =>
        rw [hv] at h₂ w₂
        cases v with
        | some v => exact ⟨s₂, rfl, h₂, w₂⟩
        | none =>
          obtain ⟨s₃, hs₃, h₃, w₃⟩ := setprioIn_sim h₂ w₂ .running pID hprio
          simp only [ListId.state] at hs₃
          simp only [hs₃]
          cases hv₃ : a₂.setprioIn .running pID prio with
          | mk v a₃ =>
            rw [hv₃] at h₃ w₃
            cases v <;> exact ⟨s₃, rfl, h₃, w₃⟩

/-! ## promoteProcs and the scheduler -/

/-- The list version panics, or both come back with related tables. -/
def SimP (r : Except Panic PTable) (ra : Except Panic Lists) : Prop :=
  match ra with
  | .error e => r = .error e
  | .ok a => Sim r a

theorem SimP.bind {r : Except Panic PTable} {ra : Except Panic Lists}
    {k : PTable → Except Panic PTable} {kA : Lists → Except Panic Lists} (h : SimP r ra)
    (hk : ∀ s a, Rep s a → a.WF → SimP (k s) (kA a)) : SimP (r >>= k) (ra >>= kA) := by
  cases ra with
  | error e =>
    simp only [SimP] at h
    rw [h]
    rfl
  | ok a =>
    obtain ⟨s, rfl, hr, hw⟩ := h
    exact hk s a hr hw

theorem foldlM_simP {α : Type} {body : PTable → α → Except Panic PTable}
    {bodyA : Lists → α → Except Panic Lists} (l : List α)
    (hb : ∀ x ∈ l, ∀ s a, Rep s a → a.WF → SimP (body s x) (bodyA a x)) (s : PTable) (a : Lists)
    (h : Rep s a) (hw : a.WF) : SimP (l.foldlM body s) (l.foldlM bodyA a) := by
  induction l generalizing s a with
  | nil => exact ⟨s, rfl, h, hw⟩
  | cons x l ih =>
    simp only [foldlM_cons]
    exact (hb x mem_cons_self s a h hw).bind fun s' a' h' w' =>
      ih (fun y hy => hb y (mem_cons_of_mem x hy)) s' a' h' w'

theorem requeue_list_head (a : Lists) {src dst : ListId} {l : List Slot} (hl : a.list src = p :: l)
    (hne : src ≠ dst) (f : Proc → Proc) : (a.requeue src dst p f).list src = l := by
  simp only [Lists.requeue, Lists.add, Lists.modify, Lists.remove, update_of_ne hne,
    update_self, hl, erase_cons_head]

/-- The loop over the heads of level `i` moves the level cell by cell. -/
theorem promoteLevel_simP (l : List Slot) (i : Nat) (hi : 0 < i) (hm : i ≤ maxPrio) (n : Nat)
    (hn : l.length ≤ n) (s : PTable) (a : Lists) (h : Rep s a) (hw : a.WF)
    (hl : a.list (.ready i) = l) :
    SimP (PTable.promoteLevel i n s) (l.foldlM (fun a p =>
      a.requeueAt i (.ready (i - 1)) p fun q =>
        { q with priority := q.priority - 1, budget := maxBudget }) a) := by
  induction l generalizing n s a with
  | nil =>
    refine ⟨s, ?_, h, hw⟩
    have hh : s.head (.ready i) = none := by rw [h.head_eq, hl]; rfl
    cases n <;> simp [PTable.promoteLevel, hh]
  | cons p l ih =>
    have hh : s.head (.ready i) = some p := by rw [h.head_eq, hl]; rfl
    have hmem : p ∈ a.list (.ready i) := by rw [hl]; exact mem_cons_self
    cases n with
    | zero => simp at hn
    | succ n =>
      obtain ⟨s₁, h₁, hproc, hst, hreq⟩ := requeueAt_sim h hw hmem (.ready (i - 1))
        (fun q => { q with priority := q.priority - 1, budget := maxBudget })
        (hw.state (.ready i) p hmem) (by have := hw.prio p; dsimp only; omega)
        (by rintro j ⟨⟩; omega)
      simp only [foldlM_cons, PTable.promoteLevel, hh, h₁]
      cases hA : a.requeueAt i (.ready (i - 1)) p fun q =>
          { q with priority := q.priority - 1, budget := maxBudget } with
      | error e =>
        rw [hA] at hreq
        simp only at hreq
        simp [SimP, hst, hreq, bind, Except.bind]
      | ok a' =>
        have ha' : a' = a.requeue (.ready i) (.ready (i - 1)) p fun q =>
            { q with priority := q.priority - 1, budget := maxBudget } := by
          unfold Lists.requeueAt at hA
          split at hA
          · cases hA
          · exact (Except.ok.inj hA).symm
        rw [hA] at hreq
        obtain ⟨hpr, s₂, h₂, r₂, w₂⟩ := hreq
        have hl' : a'.list (.ready i) = l := by
          rw [ha']
          exact requeue_list_head a hl (by simp; omega) _
        have := ih n (by simpa using hn) s₂ a' r₂ w₂ hl'
        simpa [bind, Except.bind, hst, hpr, h₂] using this

theorem promoteBody_sim (h : Rep s a) (hw : a.WF) (id : ListId) :
    ∃ s', s.forList id (PTable.promoteBody id.state) = .ok (none, s') ∧
      Rep s' (a.mapSlots (a.list id) Lists.promote) ∧
      (a.mapSlots (a.list id) Lists.promote).WF := by
  rw [forList_eq h id _ (by
    intro p t t' ht
    unfold PTable.promoteBody at ht
    simp only [bind, Except.bind] at ht
    split at ht
    · cases ht
    · simp only [Except.ok.injEq, Prod.mk.injEq, true_and] at ht
      rw [← ht]
      rfl)]
  rw [forIn_modify (PTable.promoteBody id.state) Lists.promote s (a.list id) (h.disjoint.nodup id)
    (by
      intro p hp pr hpr
      have hst := hw.state id p hp
      unfold PTable.promoteBody PTable.assertState
      simp only [hpr, h.proc, hst, ne_eq, not_true_eq_false, if_false, bind, Except.bind]
      rfl)]
  refine ⟨_, rfl, h.mapSlots _ _, hw.mapSlots (fun p _ => rfl) fun p _ => ?_⟩
  have := hw.prio p
  unfold Lists.promote
  dsimp only
  split <;> omega

theorem promoteProcs_simP (h : Rep s a) (hw : a.WF) : SimP s.promoteProcs a.promoteProcs := by
  unfold PTable.promoteProcs Lists.promoteProcs
  refine SimP.bind (foldlM_simP _ ?_ s a h hw) fun s₁ a₁ h₁ w₁ => ?_
  · intro i hi s a h hw
    rw [mem_range'_1] at hi
    exact promoteLevel_simP _ i (by omega) (by omega) NPROC (h.length_le _) s a h hw rfl
  · obtain ⟨s₂, hs₂, h₂, w₂⟩ := promoteBody_sim h₁ w₁ .sleep
    obtain ⟨s₃, hs₃, h₃, w₃⟩ := promoteBody_sim h₂ w₂ .running
    simp only [ListId.state] at hs₂ hs₃
    refine ⟨s₃, ?_, h₃, w₃⟩
    simp only [hs₂, hs₃, bind, Except.bind]

theorem dispatch_simE (h : Rep s a) (hw : a.WF) (i : Nat) :
    SimE (s.dispatch i) (a.dispatch i) := by
  unfold PTable.dispatch Lists.dispatch
  rw [h.head_eq]
  cases hl : (a.list (.ready i)).head? with
  | none => exact ⟨s, rfl, h, hw⟩
  | some p =>
    have hmem := mem_of_head? hl
    obtain ⟨s₁, h₁, hproc, hst, hreq⟩ := requeueAt_sim h hw hmem .running
      (fun q => { q with state := .running }) rfl (hw.prio p) (by simp)
    simp only [h₁, hst, bind, Except.bind]
    cases hA : a.requeueAt i .running p fun q => { q with state := .running } with
    | error e =>
      rw [hA] at hreq
      simp only at hreq
      simp [SimE, hreq, Except.map]
    | ok a' =>
      rw [hA] at hreq
      obtain ⟨hpr, s₂, h₂, r₂, w₂⟩ := hreq
      have hticks : s₂.ticks = a'.ticks := congrArg Globals.ticks r₂.globals
      obtain ⟨r₃, w₃⟩ := modify_sim r₂ w₂ (p := p)
        (f := fun q => { q with cpuTicksIn := a'.ticks }) rfl (w₂.prio p)
      rw [← hticks] at r₃ w₃
      refine ⟨s₂.modify p fun q => { q with cpuTicksIn := s₂.ticks }, ?_, ?_⟩
      · simp [hpr, h₂]
      · rw [← hticks]
        exact ⟨r₃, w₃⟩

theorem scheduler_simE (h : Rep s a) (hw : a.WF) : SimE s.scheduler a.scheduler := by
  have hgo : ∀ s a, Rep s a → a.WF → SimE (PTable.forReady PTable.dispatch s)
      (forIn Lists.dispatch (List.range (maxPrio + 1)) a) := fun s a h hw =>
    forIn_simE (P := fun _ => True) _ (fun i _ s a h hw _ => dispatch_simE h hw i)
      (fun _ _ _ _ _ _ => trivial) s a h hw trivial
  unfold PTable.scheduler Lists.scheduler
  have hticks : s.ticks = a.ticks := congrArg Globals.ticks h.globals
  have hprom : s.promoteAtTime = a.promoteAtTime := congrArg Globals.promoteAtTime h.globals
  rw [hticks, hprom]
  split
  · have hp := promoteProcs_simP h hw
    cases hA : a.promoteProcs with
    | error e =>
      rw [hA] at hp
      simp only [SimP] at hp
      simp only [hp, SimE, bind, Except.bind]
    | ok a₁ =>
      rw [hA] at hp
      obtain ⟨s₁, hs₁, h₁, w₁⟩ := hp
      simp only [hs₁, bind, Except.bind]
      refine hgo _ _ ⟨?_, h₁.proc, h₁.chain, h₁.tail, ⟨h₁.disjoint.nodup, h₁.disjoint.unique⟩⟩
        ⟨⟨w₁.disjoint.nodup, w₁.disjoint.unique⟩, w₁.state, w₁.total, w₁.level, w₁.prio⟩
      simp only [h₁.globals]
  · exact hgo s a h hw

end

/-! ## userinit -/

/-- The table as the boot loader leaves it: zeroes, and `nextpid = 1`. -/
def PTable.boot (ticks : BitVec 32) : PTable where
  promoteAtTime := 0
  initproc := none
  nextpid := 1
  ticks := ticks
  proc := fun _ => {}
  next := fun _ => none
  head := fun _ => none
  tail := fun _ => none

/-- After `initFreeList`: every slot is free. -/
def Lists.allFree (ticks : BitVec 32) : Lists where
  promoteAtTime := ticks + ticksToPromote
  initproc := none
  nextpid := 1
  ticks := ticks
  proc := fun _ => {}
  list := fun id => if id = .free then List.finRange NPROC else []

/-- The first process, alone on `ready[0]`. -/
def Lists.userinit (ticks : BitVec 32) : Lists :=
  let a := (Lists.allFree ticks).allocproc.2.allocInit 0
  let a := { a with initproc := some 0 }
  let a := a.modify 0 fun q => { q with name := PTable.initcode, uid := 0, gid := 0 }
  a.requeue .embryo (.ready 0) 0 fun q => { q with state := .runnable }

theorem Lists.allFree_wf (ticks : BitVec 32) : (Lists.allFree ticks).WF where
  disjoint := by
    refine ⟨fun id => ?_, fun id id' p h h' => ?_⟩
    · unfold Lists.allFree
      dsimp only
      split
      · exact nodup_finRange NPROC
      · exact nodup_nil
    · unfold Lists.allFree at h h'
      dsimp only at h h'
      split at h
      · split at h'
        · next e e' => rw [e, e']
        · simp at h'
      · simp at h
  state id p h := by
    unfold Lists.allFree at h ⊢
    dsimp only at h ⊢
    split at h
    · next e => subst e; rfl
    · simp at h
  total p := ⟨.free, by simp [Lists.allFree]⟩
  level i _ := by simp [Lists.allFree]
  prio p := Nat.zero_le _

/-- Appending fresh slots one by one to the free list. -/
theorem initFreeList_rep (l : List Slot) (s : PTable) (a : Lists) (h : Rep s a) (hnd : l.Nodup)
    (hl : ∀ p ∈ l, ∀ id, p ∉ a.list id) (hz : ∀ p ∈ l, (a.proc p).state = .unused) :
    ∃ s', l.foldlM (fun s p => do
        let (_, s) ← PTable.stateListAdd .free p (s.modify p fun q => { q with state := .unused })
        Except.ok s) s = .ok s' ∧
      Rep s' { a with list := update a.list .free (a.list .free ++ l) } := by
  induction l generalizing s a with
  | nil =>
    refine ⟨s, rfl, ?_⟩
    simp only [append_nil, update_eq_self]
    exact h
  | cons p l ih =>
    obtain ⟨hpl, hnd⟩ := nodup_cons.1 hnd
    have hsame : s.modify p (fun q => { q with state := .unused }) = s := by
      have hst : (s.proc p).state = .unused := by
        rw [h.proc]
        exact hz p mem_cons_self
      have hid : { s.proc p with state := ProcState.unused } = s.proc p := by
        cases hq : s.proc p
        rw [hq] at hst
        simp_all
      unfold PTable.modify
      dsimp only at hid ⊢
      rw [hid, update_eq_self]
    obtain ⟨s₁, hs₁, h₁, -⟩ := stateListAdd_rep h (hl p mem_cons_self) .free
    obtain ⟨s₂, hs₂, h₂⟩ := ih s₁ (a.add .free p) h₁ hnd (by
        intro q hq id hm
        by_cases he : id = .free
        · subst he
          simp only [Lists.add, update_self, mem_append, mem_singleton] at hm
          rcases hm with hm | rfl
          · exact hl q (mem_cons_of_mem p hq) .free hm
          · exact hpl hq
        · simp only [Lists.add, update_of_ne he] at hm
          exact hl q (mem_cons_of_mem p hq) id hm)
      fun q hq => hz q (mem_cons_of_mem p hq)
    refine ⟨s₂, ?_, ?_⟩
    · simp only [foldlM_cons, hsame, hs₁, bind, Except.bind] at hs₂ ⊢
      exact hs₂
    · simpa [Lists.add] using h₂

/-- The last block of `userinit`, while `ready[0]` is still empty. -/
theorem userinitReady_sim {s : PTable} {a : Lists} (h : Rep s a) (hw : a.WF)
    (hp : p ∈ a.list .embryo) (hr : a.list (.ready 0) = []) :
    Sim (s.userinitReady p)
      (a.requeue .embryo (.ready 0) p fun q => { q with state := .runnable }) := by
  obtain ⟨t₁, t₂, ht₁, hproc, -, ht₂, r₂, -⟩ := requeue_rep h hp (.ready 0)
    fun q => { q with state := .runnable }
  have hhead : t₁.head (.ready 0) = none := by
    obtain ⟨u, hu, hru⟩ := stateListRemove_rep h hp
    rw [ht₁] at hu
    obtain rfl : t₁ = u := by simpa using hu
    rw [hru.head_eq, remove_list_of_ne _ _ (by simp), hr]
    rfl
  have hassert : t₁.assertState p .embryo = .ok () := by
    unfold PTable.assertState
    rw [hproc, hw.state .embryo p hp]
    rfl
  refine ⟨t₂, ?_, r₂, hw.requeue hp rfl (hw.prio p) (by rintro i ⟨⟩; exact Nat.zero_le _)⟩
  -- on an empty list `stateListAdd` does what the source writes out here
  unfold PTable.stateListAdd at ht₂
  rw [PTable.modify_head, hhead] at ht₂
  simp only [Except.ok.injEq, Prod.mk.injEq, true_and] at ht₂
  unfold PTable.userinitReady
  simp only [ht₁, bind, Except.bind, hassert]
  rw [← ht₂]
  rfl

theorem userinit_sim (ticks : BitVec 32) :
    Sim (PTable.boot ticks).userinit (Lists.userinit ticks) := by
  let a₀ : Lists := { (PTable.boot ticks).toGlobals with proc := fun _ => {}, list := fun _ => [] }
  have h₀ : Rep (PTable.boot ticks).initProcessLists a₀ :=
    ⟨rfl, rfl, fun _ => rfl, fun _ hne => absurd rfl hne, ⟨fun _ => nodup_nil, by simp [a₀]⟩⟩
  obtain ⟨s₁, hs₁, h₁⟩ := initFreeList_rep (List.finRange NPROC) _ a₀ h₀ (nodup_finRange NPROC)
    (by simp [a₀]) fun _ _ => rfl
  have hw := Lists.allFree_wf ticks
  have h₂ : Rep { s₁ with promoteAtTime := s₁.ticks + ticksToPromote } (Lists.allFree ticks) := by
    have hl : (Lists.allFree ticks).list =
        update a₀.list .free (a₀.list .free ++ List.finRange NPROC) := by
      funext id
      by_cases he : id = .free
      · subst he
        simp [Lists.allFree, a₀]
      · simp [Lists.allFree, a₀, he]
    refine ⟨?_, h₁.proc, ?_, ?_, hw.disjoint⟩
    · have := h₁.globals
      simp only [this]
      rfl
    · intro id
      rw [hl]
      exact h₁.chain id
    · intro id
      rw [hl]
      exact h₁.tail id
  obtain ⟨s₃, hs₃, h₃, w₃⟩ := allocproc_sim h₂ hw
  obtain ⟨h₄, w₄⟩ := allocprocInit_sim h₃ w₃ 0
  have h₅ : Rep { s₃.allocprocInit 0 with initproc := some 0 }
      { (Lists.allFree ticks).allocproc.2.allocInit 0 with initproc := some 0 } :=
    ⟨by simp only [h₄.globals], h₄.proc, h₄.chain, h₄.tail,
      ⟨h₄.disjoint.nodup, h₄.disjoint.unique⟩⟩
  have w₅ : Lists.WF { (Lists.allFree ticks).allocproc.2.allocInit 0 with initproc := some 0 } :=
    ⟨⟨w₄.disjoint.nodup, w₄.disjoint.unique⟩, w₄.state, w₄.total, w₄.level, w₄.prio⟩
  obtain ⟨h₆, w₆⟩ := modify_sim h₅ w₅ (p := 0)
    (f := fun q => { q with name := PTable.initcode, uid := 0, gid := 0 }) rfl (w₅.prio 0)
  have hfree : (0 : Slot) ∈ (Lists.allFree ticks).list .free := by simp [Lists.allFree]
  have hlist : (Lists.allFree ticks).allocproc.2.list = ((Lists.allFree ticks).requeue .free .embryo
      0 fun q => { q with state := .embryo }).list := rfl
  have hemb : (0 : Slot) ∈ (Lists.allFree ticks).allocproc.2.list .embryo := by
    rw [hlist]
    exact (hw.disjoint.mem_requeue hfree _ _ _ _).2 (Or.inl ⟨rfl, rfl⟩)
  have hready : (Lists.allFree ticks).allocproc.2.list (.ready 0) = [] := by
    rw [hlist, requeue_list_of_ne _ _ _ (by simp) (by simp)]
    rfl
  obtain ⟨s₇, hs₇, h₇⟩ := userinitReady_sim h₆ w₆ (p := 0) hemb hready
  refine ⟨s₇, ?_, h₇⟩
  have hfl : PTable.initFreeList (PTable.boot ticks).initProcessLists = .ok s₁ := hs₁
  have h0 : (Lists.allFree ticks).allocproc.1 = some 0 := rfl
  rw [h0] at hs₃
  unfold PTable.userinit
  simp only [hfl, hs₃, bind, Except.bind]
  exact hs₇

end Xv6.Procs
