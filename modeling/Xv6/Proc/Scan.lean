import Xv6.Proc.Invariant

/-!
# The table-scan versions of `wakeup1` and `exit`

The build without `CS333_P3P4` walks `ptable.proc` from the first slot to the
last.  Here are `wakeup1` and the critical section of `exit` in that form, in
closed form, and the comparison of the two versions of `wakeup1`: the list
version does what the scan does exactly when at most one process sleeps on the
channel, because its loop goes on from `p->next` after `p` has become the last
cell of a ready list.
-/

namespace Xv6.Procs

open Function List

/-! ## A scan that writes slot by slot -/

theorem PTable.mapSlots_nil (s : PTable) (f : Proc → Proc) : s.mapSlots [] f = s := by
  simp [PTable.mapSlots]

theorem PTable.foldl_modify (l : List Slot) (hl : l.Nodup) (f : Proc → Proc) (s : PTable) :
    l.foldl (fun s p => s.modify p f) s = s.mapSlots l f := by
  induction l generalizing s with
  | nil => exact (s.mapSlots_nil f).symm
  | cons p l ih =>
    obtain ⟨hp, hl⟩ := nodup_cons.1 hl
    rw [foldl_cons, ih hl]
    simp only [PTable.mapSlots, PTable.modify, PTable.mk.injEq, true_and, and_true]
    funext q
    by_cases he : q = p
    · subst he
      simp [hp]
    · simp [he]

theorem PTable.modify_same (s : PTable) (p : Slot) {f : Proc → Proc} (h : f (s.proc p) = s.proc p) :
    s.modify p f = s := by
  unfold PTable.modify
  rw [h, update_eq_self]

/-! ## wakeup1 -/

/-- `p` sleeps on `chan`. -/
def Proc.Waits (chan : Chan) (q : Proc) : Prop := q.state = .sleeping ∧ q.chan = chan

instance (chan : Chan) (q : Proc) : Decidable (q.Waits chan) :=
  inferInstanceAs (Decidable (_ ∧ _))

def Proc.wake (chan : Chan) (q : Proc) : Proc :=
  if q.Waits chan then { q with state := .runnable } else q

/-- `wakeup1`, table-scan version. -/
def PTable.wakeup1Scan (chan : Chan) (s : PTable) : PTable :=
  (List.finRange NPROC).foldl (fun s p =>
    if (s.proc p).state = .sleeping ∧ (s.proc p).chan = chan then
      s.modify p fun q => { q with state := .runnable }
    else s) s

theorem wakeup1Scan_eq (chan : Chan) (s : PTable) :
    s.wakeup1Scan chan = { s with proc := fun p => (s.proc p).wake chan } := by
  have hbody : (fun (s : PTable) p =>
      if (s.proc p).state = .sleeping ∧ (s.proc p).chan = chan then
        s.modify p fun q => { q with state := .runnable }
      else s) = fun s p => s.modify p (Proc.wake chan) := by
    funext s p
    split
    · next h =>
      have : (s.proc p).wake chan = { s.proc p with state := .runnable } := if_pos h
      simp only [PTable.modify, this]
    · next h => exact (s.modify_same p (if_neg h)).symm
  unfold PTable.wakeup1Scan
  rw [hbody, PTable.foldl_modify _ (nodup_finRange NPROC)]
  simp [PTable.mapSlots]

/-- What waking the sleepers on `chan` means, from `s` to `s'`. -/
structure PTable.Woken (chan : Chan) (s s' : PTable) : Prop where
  woken : ∀ p, (s.proc p).Waits chan →
    (s'.proc p).state = .runnable ∧ p ∈ s'.slots (.ready (s.proc p).priority)
  noneLeft : ∀ p ∈ s'.slots .sleep, (s'.proc p).chan ≠ chan
  others : ∀ p, ¬ (s.proc p).Waits chan →
    s'.proc p = s.proc p ∧ ∀ id, p ∈ s'.slots id ↔ p ∈ s.slots id
  order : ∀ id, (s'.slots id).filter (fun p => decide (¬ (s.proc p).Waits chan)) =
    (s.slots id).filter fun p => decide (¬ (s.proc p).Waits chan)
  scan : s'.proc = (s.wakeup1Scan chan).proc

variable {chan : Chan} {p : Slot}

section
variable {s s' : PTable} {a : Lists}

theorem sleeper_none (hw : a.WF) (h : a.sleeper chan = none) (p : Slot) :
    ¬ (a.proc p).Waits chan := by
  rintro ⟨hst, hc⟩
  have := find?_eq_none.1 h p ((hw.mem_iff (by simp) p).2 hst)
  simp [hc] at this

theorem sleeper_some (hw : a.WF) (h : a.sleeper chan = some p) :
    p ∈ a.list .sleep ∧ (a.proc p).Waits chan := by
  have hm := mem_of_find?_eq_some h
  exact ⟨hm, hw.state .sleep p hm, by simpa using find?_some h⟩

/-- Nobody waits: nothing happens, and nothing has to. -/
theorem woken_refl (hw : s.lists.WF) (h : ∀ p, ¬ (s.proc p).Waits chan) : s.Woken chan s where
  woken p hp := absurd hp (h p)
  noneLeft p hp hc := h p ⟨hw.state .sleep p hp, hc⟩
  others _ _ := ⟨rfl, fun _ => Iff.rfl⟩
  order _ := rfl
  scan := by
    rw [wakeup1Scan_eq]
    funext p
    exact (if_neg (h p)).symm

theorem filter_erase_self {α : Type} [DecidableEq α] {P : α → Bool} (l : List α) {x : α}
    (hx : P x = false) : (l.erase x).filter P = l.filter P := by
  induction l with
  | nil => rfl
  | cons y l ih =>
    by_cases he : y = x
    · subst he
      simp [hx]
    · rw [erase_cons_tail (by simpa using he), filter_cons, filter_cons, ih]

/-- Moving one slot from list to list leaves the others where they are, in their order. -/
theorem filter_requeue (a : Lists) {src dst : ListId} {f : Proc → Proc}
    {P : Slot → Bool} (hp : P p = false) (id : ListId) :
    ((a.requeue src dst p f).list id).filter P = (a.list id).filter P := by
  have hrem : ∀ id, ((a.remove src p).list id).filter P = (a.list id).filter P := by
    intro id
    by_cases he : id = src
    · subst he
      simp only [Lists.remove, update_self]
      exact filter_erase_self _ hp
    · rw [remove_list_of_ne _ _ he]
  by_cases he : id = dst
  · subst he
    simp only [Lists.requeue, Lists.add, update_self, filter_append, Lists.modify_list,
      hrem]
    simp [hp]
  · simp only [Lists.requeue, Lists.add, update_of_ne he, Lists.modify_list, hrem]

/-- The only sleeper on the channel is moved to the list of its priority. -/
theorem woken_requeue (hr : Rep s a) (hw : a.WF)
    (hp : p ∈ a.list .sleep) (hpw : (a.proc p).Waits chan)
    (h1 : ∀ q, (a.proc q).Waits chan → q = p)
    (hr' : Rep s' (a.requeue .sleep (.ready (a.proc p).priority) p
      fun q => { q with state := .runnable })) : s.Woken chan s' := by
  have hproc : s'.proc = update s.proc p { s.proc p with state := .runnable } := by
    rw [hr'.proc, hr.proc]
    rfl
  have hmem : ∀ q id, q ∈ s'.slots id ↔
      (q = p ∧ id = .ready (s.proc p).priority) ∨ (q ≠ p ∧ q ∈ s.slots id) := by
    intro q id
    rw [hr'.slots_eq, hr.slots_eq, hr.proc]
    exact hw.disjoint.mem_requeue hp _ _ id q
  rw [← hr.proc] at hpw h1
  refine ⟨fun q hq => ?_, fun q hq => ?_, fun q hq => ?_, fun id => ?_, ?_⟩
  · obtain rfl := h1 q hq
    rw [hproc, update_self]
    exact ⟨rfl, (hmem q _).2 (Or.inl ⟨rfl, rfl⟩)⟩
  · rcases (hmem q _).1 hq with ⟨-, he⟩ | ⟨hne, hm⟩
    · cases he
    · rw [hproc, update_of_ne hne]
      rw [hr.slots_eq] at hm
      intro hc
      exact hne (h1 q ⟨by rw [hr.proc]; exact hw.state .sleep q hm, hc⟩)
  · have hne : q ≠ p := by
      rintro rfl
      exact hq hpw
    rw [hproc, update_of_ne hne]
    refine ⟨rfl, fun id => ?_⟩
    rw [hmem]
    simp [hne]
  · rw [hr'.slots_eq, hr.slots_eq]
    exact filter_requeue a (by simpa using hpw) id
  · rw [hproc, wakeup1Scan_eq]
    funext q
    by_cases he : q = p
    · subst he
      rw [update_self]
      exact (if_pos hpw).symm
    · rw [update_of_ne he]
      exact (if_neg fun hq => he (h1 q hq)).symm

/-- On tables whose lists are sound the list version of `wakeup1` comes back, and does what
the table-scan version does exactly when at most one process sleeps on the channel. -/
theorem wakeup1_woken_iff (h : s.ListInv) (chan : Chan) :
    ∃ s', s.wakeup1 chan = .ok s' ∧ (s.Woken chan s' ↔
      ∀ p q, (s.proc p).Waits chan → (s.proc q).Waits chan → p = q) := by
  obtain ⟨hr, hw⟩ := (listInv_iff s).1 h
  obtain ⟨s', hs, hr', -⟩ := wakeup1_sim hr hw chan
  refine ⟨s', hs, ?_⟩
  unfold Lists.wakeup1 at hr'
  cases hf : s.lists.sleeper chan with
  | none =>
    have hno : ∀ p, ¬ (s.proc p).Waits chan := sleeper_none hw hf
    rw [hf] at hr'
    have hproc : s'.proc = s.proc := hr'.proc
    have hslots : s'.slots = s.slots := funext hr'.slots_eq
    refine iff_of_true ?_ fun p q hp => absurd hp (hno p)
    have := woken_refl hw hno
    exact ⟨fun p hp => absurd hp (hno p), by rw [hproc, hslots]; exact this.noneLeft,
      by rw [hproc, hslots]; exact this.others, by rw [hslots]; exact this.order,
      by rw [hproc]; exact this.scan⟩
  | some p =>
    rw [hf] at hr'
    obtain ⟨hm, hpw⟩ := sleeper_some hw hf
    constructor
    · -- a second sleeper is left as it was
      intro hwk q r hq hr₁
      have hall : ∀ q, (s.proc q).Waits chan → q = p := by
        intro q hq
        by_contra hne
        have hq' := (hwk.woken q hq).1
        rw [hr'.proc, Lists.requeue_proc, Lists.modify_proc_of_ne _ _ hne] at hq'
        have hst : (s.proc q).state = .sleeping := hq.1
        change (s.proc q).state = .runnable at hq'
        rw [hst] at hq'
        cases hq'
      rw [hall q hq, hall r hr₁]
    · intro h1
      exact woken_requeue hr hw hm hpw (fun q hq => h1 q p hq hpw) hr'

end

/-- Init sleeps alone on an address. -/
theorem wakeup1_woken_iff_single : ∃ k s', kernel.Reach k ∧ k.tab.wakeup1 (.addr 7) = .ok s' ∧
    k.tab.Woken (.addr 7) s' ∧ (k.tab.proc 0).Waits (.addr 7) := by
  obtain ⟨k, hk, hP⟩ := Kernel.exists_reach [.scheduler, .sleep 0 7]
    (P := fun k => decide ((k.tab.proc 0).Waits (.addr 7) ∧
      ∀ p q, (k.tab.proc p).Waits (.addr 7) → (k.tab.proc q).Waits (.addr 7) → p = q))
    (by decide +kernel)
  obtain ⟨h0, h1⟩ := of_decide_eq_true hP
  obtain ⟨s', hs, hiff⟩ := wakeup1_woken_iff (listInv_of_reach hk) (.addr 7)
  exact ⟨k, s', hk, hs, hiff.2 h1, h0⟩

/-- Init and its child sleep on the same address: the child is not woken. -/
theorem wakeup1_leaves_second : ∃ k s', kernel.Reach k ∧ k.tab.ListInv ∧
    (k.tab.proc 1).Waits (.addr 7) ∧ k.tab.wakeup1 (.addr 7) = .ok s' ∧
    (s'.proc 0).state = .runnable ∧ (s'.proc 1).Waits (.addr 7) ∧ ¬ k.tab.Woken (.addr 7) s' := by
  obtain ⟨k, hk, hP⟩ := Kernel.exists_reach
    [.scheduler, .forkAlloc 0, .kallocOk 0 1, .copyuvmOk 0 1, .forkReady 0 1, .sleep 0 7,
      .scheduler, .sleep 1 7]
    (P := fun k => decide ((k.tab.proc 1).Waits (.addr 7)) &&
      (k.tab.wakeup1 (.addr 7)).toOption.any fun s' : PTable =>
        decide ((s'.proc 0).state = .runnable ∧ (s'.proc 1).Waits (.addr 7))) (by decide +kernel)
  simp only [Bool.and_eq_true, decide_eq_true_eq] at hP
  obtain ⟨s', hs, hP'⟩ := exists_ok hP.2
  obtain ⟨h0', h1'⟩ := of_decide_eq_true hP'
  refine ⟨k, s', hk, listInv_of_reach hk, hP.1, hs, h0', h1', fun hw => ?_⟩
  have := (hw.woken 1 hP.1).1
  rw [h1'.1] at this
  cases this

/-! ## exit -/

/-- The loop body of `exit`, table-scan version. -/
def PTable.exitScanBody (proc p : Slot) (s : PTable) : PTable :=
  if (s.proc p).parent = some proc then
    let s := s.modify p fun q => { q with parent := s.initproc }
    if (s.proc p).state = .zombie then s.wakeup1Scan (.ofProc s.initproc) else s
  else s

/-- The critical section of `exit`, table-scan version. -/
def PTable.exitScan (proc : Slot) (s : PTable) : Except Panic PTable :=
  if s.initproc = some proc then .error .initExiting
  else
    let s := s.wakeup1Scan (.ofProc (s.proc proc).parent)
    let s := (List.finRange NPROC).foldl (fun s p => s.exitScanBody proc p) s
    let s := s.modify proc fun q => { q with state := .zombie }
    s.sched proc

/-- A child of `pExit` gets the parent `i`. -/
def Proc.passTo (pExit : Slot) (i : Option Slot) (q : Proc) : Proc :=
  if q.parent = some pExit then { q with parent := i } else q

theorem Proc.wake_of_waits {q : Proc} (h : q.Waits chan) :
    q.wake chan = { q with state := .runnable } :=
  if_pos h

theorem Proc.wake_of_not {q : Proc} (h : ¬ q.Waits chan) : q.wake chan = q :=
  if_neg h

theorem Proc.wake_not_waits (chan : Chan) (q : Proc) : ¬ (q.wake chan).Waits chan := by
  by_cases h : q.Waits chan
  · rw [Proc.wake_of_waits h]
    rintro ⟨hs, -⟩
    cases hs
  · rwa [Proc.wake_of_not h]

theorem Proc.wake_wake (chan : Chan) (q : Proc) : (q.wake chan).wake chan = q.wake chan :=
  Proc.wake_of_not (q.wake_not_waits chan)

theorem Proc.wake_parent (chan : Chan) (q : Proc) : (q.wake chan).parent = q.parent := by
  unfold Proc.wake
  split <;> rfl

theorem Proc.wake_zombie (chan : Chan) (q : Proc) :
    (q.wake chan).state = .zombie ↔ q.state = .zombie := by
  unfold Proc.wake
  split
  · next h =>
    rw [h.1]
    simp
  · rfl

theorem Proc.passTo_wake (pExit : Slot) (i : Option Slot) (chan : Chan) (q : Proc) :
    (q.wake chan).passTo pExit i = (q.passTo pExit i).wake chan := by
  by_cases hp : q.parent = some pExit
  · have hp' : (q.wake chan).parent = some pExit := by rw [q.wake_parent, hp]
    rw [Proc.passTo, if_pos hp', Proc.passTo, if_pos hp]
    by_cases hw : q.Waits chan
    · rw [Proc.wake_of_waits hw, Proc.wake_of_waits (q := { q with parent := i }) hw]
    · rw [Proc.wake_of_not hw, Proc.wake_of_not (q := { q with parent := i }) hw]
  · have hp' : (q.wake chan).parent ≠ some pExit := by rw [q.wake_parent]; exact hp
    rw [Proc.passTo, if_neg hp', Proc.passTo, if_neg hp]

/-- A zombie child of `pExit` among `l`. -/
def PTable.ZombieIn (s : PTable) (pExit : Slot) (l : List Slot) : Prop :=
  ∃ c ∈ l, (s.proc c).parent = some pExit ∧ (s.proc c).state = .zombie

instance (s : PTable) (pExit : Slot) (l : List Slot) : Decidable (s.ZombieIn pExit l) :=
  inferInstanceAs (Decidable (∃ c ∈ l, _))

/-- The children of `pExit` among `l` get init as their parent. -/
def PTable.passed (s : PTable) (pExit : Slot) (l : List Slot) : PTable :=
  s.mapSlots l (Proc.passTo pExit s.initproc)

theorem PTable.passed_proc (s : PTable) (pExit : Slot) (l : List Slot) (q : Slot) :
    (s.passed pExit l).proc q = if q ∈ l then (s.proc q).passTo pExit s.initproc else s.proc q :=
  rfl

theorem wakeup1Scan_proc (chan : Chan) (s : PTable) (q : Slot) :
    (s.wakeup1Scan chan).proc q = (s.proc q).wake chan := by
  rw [wakeup1Scan_eq]

theorem wakeup1Scan_toGlobals (chan : Chan) (s : PTable) :
    (s.wakeup1Scan chan).toGlobals = s.toGlobals := by
  rw [wakeup1Scan_eq]

theorem wakeup1Scan_twice (chan : Chan) (s : PTable) :
    (s.wakeup1Scan chan).wakeup1Scan chan = s.wakeup1Scan chan := by
  simp only [wakeup1Scan_eq, Proc.wake_wake]

theorem passed_wakeup1Scan (s : PTable) (pExit : Slot) (l : List Slot) (chan : Chan) :
    (s.wakeup1Scan chan).passed pExit l = (s.passed pExit l).wakeup1Scan chan := by
  simp only [wakeup1Scan_eq, PTable.passed, PTable.mapSlots, PTable.mk.injEq, true_and, and_true]
  funext q
  split
  · exact Proc.passTo_wake _ _ _ _
  · rfl

theorem passed_passed (s : PTable) (pExit : Slot) {l : List Slot} (hp : p ∉ l) :
    (s.passed pExit [p]).passed pExit l = s.passed pExit (p :: l) := by
  simp only [PTable.passed, PTable.mapSlots, PTable.mk.injEq, true_and, and_true]
  funext q
  by_cases he : q = p
  · subst he
    simp [hp]
  · simp [he]

theorem exitScanBody_eq (s : PTable) (pExit p : Slot) :
    s.exitScanBody pExit p = if s.ZombieIn pExit [p] then
      (s.passed pExit [p]).wakeup1Scan (.ofProc s.initproc) else s.passed pExit [p] := by
  have hmod : s.passed pExit [p] = s.modify p (Proc.passTo pExit s.initproc) := by
    simp only [PTable.passed, ← PTable.foldl_modify [p] (nodup_singleton p), foldl_cons,
      foldl_nil]
  have hz : s.ZombieIn pExit [p] ↔ (s.proc p).parent = some pExit ∧ (s.proc p).state = .zombie := by
    simp [PTable.ZombieIn]
  unfold PTable.exitScanBody
  by_cases hp : (s.proc p).parent = some pExit
  · have hpass : (s.proc p).passTo pExit s.initproc = { s.proc p with parent := s.initproc } :=
      if_pos hp
    have hs : s.passed pExit [p] = s.modify p fun q => { q with parent := s.initproc } := by
      rw [hmod]
      simp only [PTable.modify, hpass]
    have hst : ((s.modify p fun q => { q with parent := s.initproc }).proc p).state =
        (s.proc p).state := by
      simp [PTable.modify]
    simp only [hst, hz, hp, true_and, hs]
    rfl
  · have hpass : (s.proc p).passTo pExit s.initproc = s.proc p := if_neg hp
    rw [if_neg hp, if_neg fun h => hp (hz.1 h).1, hmod, s.modify_same p hpass]

/-- The whole loop: every child is passed on, and init is woken when one is a zombie. -/
theorem exitScan_foldl {pExit : Slot} (l : List Slot) (hl : l.Nodup) (s : PTable) :
    l.foldl (fun s p => s.exitScanBody pExit p) s = if s.ZombieIn pExit l then
      (s.passed pExit l).wakeup1Scan (.ofProc s.initproc) else s.passed pExit l := by
  induction l generalizing s with
  | nil =>
    rw [if_neg (by simp [PTable.ZombieIn])]
    exact (s.mapSlots_nil _).symm
  | cons p l ih =>
    obtain ⟨hpl, hl⟩ := nodup_cons.1 hl
    have hcons : s.ZombieIn pExit (p :: l) ↔ s.ZombieIn pExit [p] ∨ s.ZombieIn pExit l := by
      simp [PTable.ZombieIn]
    have hrest : (s.passed pExit [p]).ZombieIn pExit l ↔ s.ZombieIn pExit l := by
      unfold PTable.ZombieIn
      refine exists_congr fun c => and_congr_right fun hc => ?_
      have hne : c ≠ p := fun e => hpl (e ▸ hc)
      rw [PTable.passed_proc, if_neg (by simpa using hne)]
    rw [foldl_cons, ih hl, exitScanBody_eq]
    by_cases hz : s.ZombieIn pExit [p]
    · have hi : (s.passed pExit [p]).initproc = s.initproc := rfl
      rw [if_pos hz, if_pos (hcons.2 (Or.inl hz)), passed_wakeup1Scan, passed_passed s _ hpl,
        wakeup1Scan_toGlobals, hi, wakeup1Scan_twice]
      split <;> rfl
    · have hi : (s.passed pExit [p]).initproc = s.initproc := rfl
      have hz' : s.ZombieIn pExit (p :: l) ↔ s.ZombieIn pExit l := by simp [hcons, hz]
      rw [if_neg hz, passed_passed s _ hpl, hi]
      simp only [hrest, hz']

end Xv6.Procs
