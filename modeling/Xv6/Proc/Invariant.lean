import Xv6.Proc.Effect

/-!
# The list invariant over whole runs

`PTable.ListInv` is the invariant of the state lists, read off the pointers.
Every action keeps it (`exec_sim`), given that a `fork` under way owns its
embryo (`Kernel.Forks`), so it holds in every state of every run, and the only
panics an action can end in are the one of `assertPrio` and the one of an
exiting init.

`kernel_invariant` is the induction rule for everything else that is proved of
runs: the step may use the list invariant.
-/

namespace Xv6.Procs

open Function

variable {a : Lists} {l : Kernel Lists} {p np : Slot} {k : Kernel PTable}

/-! ## The invariant on the pointers -/

/-- `slots id` are the slots met from the head of the list `id` on. -/
structure PTable.ListInv (s : PTable) : Prop where
  /-- the links lead through `slots id` to null -/
  chain : ∀ id, Chain s.next (s.head id) (s.slots id)
  nodup : ∀ id, (s.slots id).Nodup
  tail : ∀ id, s.slots id ≠ [] → s.tail id = (s.slots id).getLast?
  once : ∀ p, ∃! id, p ∈ s.slots id
  level : ∀ i, maxPrio < i → s.slots (.ready i) = []
  state : ∀ id p, p ∈ s.slots id → (s.proc p).state = id.state
  prio : ∀ p, (s.proc p).priority ≤ maxPrio

theorem listInv_iff (s : PTable) : s.ListInv ↔ Rep s s.lists ∧ s.lists.WF := by
  constructor
  · intro h
    have hd : s.lists.Disjoint :=
      ⟨h.nodup, fun id id' p hp hp' => (h.once p).unique hp hp'⟩
    exact ⟨⟨rfl, rfl, h.chain, h.tail, hd⟩, hd, h.state, fun p => (h.once p).exists, h.level, h.prio⟩
  · rintro ⟨hr, hw⟩
    refine ⟨hr.chain, hw.disjoint.nodup, hr.tail, fun p => ?_, hw.level, hw.state, hw.prio⟩
    obtain ⟨id, hid⟩ := hw.total p
    exact ⟨id, hid, fun id' hid' => hw.disjoint.unique _ _ p hid' hid⟩

/-! ## A fork under way owns its embryo -/

/-- What every operation but those of `fork` itself leaves alone. -/
structure Lists.Kept (a a' : Lists) : Prop where
  embryo : ∀ p, (a.proc p).state = .embryo → (a'.proc p).state = .embryo ∧
    (a'.proc p).priority = (a.proc p).priority ∧
    ((a.proc p).parent = none → (a'.proc p).parent = none)
  free : (∀ p, (a.proc p).state = .unused → (a.proc p).parent = none) →
    ∀ p, (a'.proc p).state = .unused → (a'.proc p).parent = none

theorem Lists.Kept.trans {b c : Lists} (h : a.Kept b) (h' : b.Kept c) : a.Kept c where
  embryo p hp := by
    obtain ⟨hs, hpr, hpa⟩ := h.embryo p hp
    obtain ⟨hs', hpr', hpa'⟩ := h'.embryo p hs
    exact ⟨hs', hpr'.trans hpr, fun hn => hpa' (hpa hn)⟩
  free hf := h'.free (h.free hf)

theorem Lists.Resched.kept {a' : Lists} (h : a.Resched a') : a.Kept a' where
  embryo p hp := by
    refine ⟨?_, (h.proc p).embryo hp, fun hn => by rw [(h.proc p).parent, hn]⟩
    rw [h.state_of_not_alive (by rw [hp]; exact id), hp]
  free hf p hp := by
    rw [(h.proc p).parent]
    refine hf p ?_
    rcases (h.proc p).state with e | ⟨-, ha⟩
    · rw [← e, hp]
    · rw [hp] at ha
      exact ha.elim

/-- Only slots that are neither embryos nor free change, and none becomes either. -/
theorem Lists.Kept.of_others {a a' : Lists} (h : ∀ p, a'.proc p ≠ a.proc p →
    (a.proc p).state ≠ .embryo ∧ ((a'.proc p).state = .unused → (a'.proc p).parent = none)) :
    a.Kept a' where
  embryo p hp := by
    by_cases he : a'.proc p = a.proc p
    · rw [he]
      exact ⟨hp, rfl, id⟩
    · exact absurd hp (h p he).1
  free hf p hp := by
    by_cases he : a'.proc p = a.proc p
    · rw [he] at hp ⊢
      exact hf p hp
    · exact (h p he).2 hp

theorem Lists.Kept.forks (hk : l.tab.Kept a) (h : l.Forks) {c : Slot → Ctl}
    (hc : ∀ p np st, c p = .fork np st → l.ctl p = .fork np st) : Kernel.Forks ⟨a, c⟩ where
  embryo p np st hp := (hk.embryo np (h.embryo p np st (hc p np st hp))).1
  prio p np st hp hst := by
    rw [(hk.embryo np (h.embryo p np st (hc p np st hp))).2.1, h.prio p np st (hc p np st hp) hst]
  parent p np st hp hst :=
    (hk.embryo np (h.embryo p np st (hc p np st hp))).2.2 (h.parent p np st (hc p np st hp) hst)
  unique p q np st st' hp hq := h.unique p q np st st' (hc p np st hp) (hc q np st' hq)
  free := hk.free h.free

variable {st : Stage}

theorem update_fork {ctl : Slot → Ctl} {q : Slot} {c : Ctl}
    (hc : ∀ np st, c ≠ .fork np st) (h : update ctl p c q = .fork np st) :
    q ≠ p ∧ ctl q = .fork np st := by
  by_cases he : q = p
  · subst he
    rw [update_self] at h
    exact absurd h (hc np st)
  · rw [update_of_ne he] at h
    exact ⟨he, h⟩

/-- The caller ends up outside of `fork`. -/
theorem Lists.Kept.forks_set (hk : l.tab.Kept a) (h : l.Forks) (p : Slot) {c : Ctl}
    (hc : ∀ np st, c ≠ .fork np st) : (l.set p c a).Forks :=
  hk.forks h fun _ _ _ hq => (update_fork hc hq).2

/-- The `fork` of `p` gives up the slot `np`: it becomes ready, or free without a parent. -/
theorem Kernel.Forks.leave (h : l.Forks) (hp : l.ctl p = .fork np st)
    (ha : ∀ q, q ≠ np → a.proc q = l.tab.proc q)
    (hn : (a.proc np).state = .unused → (a.proc np).parent = none) : (l.set p .idle a).Forks := by
  have hctl : ∀ q np' st', (l.set p .idle a).ctl q = .fork np' st' →
      np' ≠ np ∧ l.ctl q = .fork np' st' := by
    intro q np' st' hq
    obtain ⟨hne, hq'⟩ := update_fork (by simp) hq
    refine ⟨?_, hq'⟩
    rintro rfl
    exact hne (h.unique q p np' st' st hq' hp)
  refine ⟨fun q np' st' hq => ?_, fun q np' st' hq => ?_, fun q np' st' hq => ?_, ?_, fun q hq => ?_⟩
  · obtain ⟨hne, hq'⟩ := hctl q np' st' hq
    show (a.proc np').state = .embryo
    rw [ha np' hne]
    exact h.embryo q np' st' hq'
  · obtain ⟨hne, hq'⟩ := hctl q np' st' hq
    show _ → (a.proc np').priority = 0
    rw [ha np' hne]
    exact h.prio q np' st' hq'
  · obtain ⟨hne, hq'⟩ := hctl q np' st' hq
    show _ → (a.proc np').parent = none
    rw [ha np' hne]
    exact h.parent q np' st' hq'
  · intro q r np' st' st'' hq hr
    exact h.unique q r np' st' st'' (hctl q np' st' hq).2 (hctl r np' st'' hr).2
  · change (a.proc q).state = .unused at hq
    show (a.proc q).parent = none
    by_cases he : q = np
    · subst he
      exact hn hq
    · rw [ha q he] at hq ⊢
      exact h.free q hq

/-- The `fork` of `p` takes over `np`, which no other works on, or goes on with it. -/
theorem Kernel.Forks.hold (h : l.Forks) (hno : ∀ q st, l.ctl q = .fork np st → q = p)
    (ha : ∀ q, q ≠ np → a.proc q = l.tab.proc q) (hs : (a.proc np).state = .embryo)
    (hpr : st ≠ .alloc → (a.proc np).priority = 0) (hpa : st ≠ .copied → (a.proc np).parent = none) :
    (l.set p (.fork np st) a).Forks := by
  have hctl : ∀ q np' st', (l.set p (.fork np st) a).ctl q = .fork np' st' →
      (q = p ∧ np' = np ∧ st' = st) ∨ (np' ≠ np ∧ l.ctl q = .fork np' st') := by
    intro q np' st' hq
    by_cases he : q = p
    · subst he
      simp only [Kernel.set, update_self, Ctl.fork.injEq] at hq
      exact Or.inl ⟨rfl, hq.1.symm, hq.2.symm⟩
    · simp only [Kernel.set, update_of_ne he] at hq
      refine Or.inr ⟨?_, hq⟩
      rintro rfl
      exact he (hno q st' hq)
  refine ⟨fun q np' st' hq => ?_, fun q np' st' hq => ?_, fun q np' st' hq => ?_, ?_, fun q hq => ?_⟩
  · show (a.proc np').state = .embryo
    rcases hctl q np' st' hq with ⟨-, rfl, -⟩ | ⟨hne, hq'⟩
    · exact hs
    · rw [ha np' hne]
      exact h.embryo q np' st' hq'
  · show _ → (a.proc np').priority = 0
    rcases hctl q np' st' hq with ⟨-, rfl, rfl⟩ | ⟨hne, hq'⟩
    · exact hpr
    · rw [ha np' hne]
      exact h.prio q np' st' hq'
  · show _ → (a.proc np').parent = none
    rcases hctl q np' st' hq with ⟨-, rfl, rfl⟩ | ⟨hne, hq'⟩
    · exact hpa
    · rw [ha np' hne]
      exact h.parent q np' st' hq'
  · intro q r np' st' st'' hq hr
    rcases hctl q np' st' hq with ⟨rfl, rfl, -⟩ | ⟨hne, hq'⟩
    · rcases hctl r np' st'' hr with ⟨rfl, -, -⟩ | ⟨hne', -⟩
      · rfl
      · exact absurd rfl hne'
    · rcases hctl r np' st'' hr with ⟨-, rfl, -⟩ | ⟨-, hr'⟩
      · exact absurd rfl hne
      · exact h.unique q r np' st' st'' hq' hr'
  · change (a.proc q).state = .unused at hq
    show (a.proc q).parent = none
    by_cases he : q = np
    · subst he
      rw [hs] at hq
      cases hq
    · rw [ha q he] at hq ⊢
      exact h.free q hq

theorem allocproc_cases (a : Lists) :
    (a.allocproc.1 = none ∧ a.allocproc.2 = a) ∨
      ∃ np, (a.list .free).head? = some np ∧ a.allocproc = (some np,
        { (a.requeue .free .embryo np fun q => { q with state := .embryo }).modify np
          (fun q => { q with pid := a.nextpid }) with nextpid := a.nextpid + 1 }) := by
  unfold Lists.allocproc
  split
  · exact Or.inl ⟨rfl, rfl⟩
  · next np hnp => exact Or.inr ⟨np, hnp, rfl⟩

/-- The slot that `allocproc` takes becomes an embryo with the next pid; no other changes. -/
theorem allocproc_proc (h : a.allocproc.1 = some np) (p : Slot) :
    a.allocproc.2.proc p =
      if p = np then { a.proc np with state := .embryo, pid := a.nextpid } else a.proc p := by
  rcases allocproc_cases a with ⟨h', -⟩ | ⟨np', -, he⟩
  · rw [h] at h'
    cases h'
  · rw [he] at h ⊢
    cases h
    dsimp only
    split
    · next e =>
      subst e
      rw [Lists.modify_proc_self, Lists.requeue_proc, Lists.modify_proc_self]
    · next e => rw [Lists.modify_proc_of_ne _ _ e, Lists.requeue_proc, Lists.modify_proc_of_ne _ _ e]

theorem allocproc_free (hw : a.WF) (h : a.allocproc.1 = some np) : (a.proc np).state = .unused := by
  rcases allocproc_cases a with ⟨h', -⟩ | ⟨np', hl, he⟩
  · rw [h] at h'
    cases h'
  · rw [he] at h
    cases h
    exact hw.state .free np (List.mem_of_head? hl)

theorem Kernel.Forks.begin (h : l.Forks) (hw : l.tab.WF) (hnp : l.tab.allocproc.1 = some np) :
    (l.set p (.fork np .alloc) l.tab.allocproc.2).Forks := by
  have hfree := allocproc_free hw hnp
  refine h.hold (fun q st hq => ?_) (fun q hq => ?_) ?_ (fun hst => absurd rfl hst) fun _ => ?_
  · have := h.embryo q np st hq
    rw [hfree] at this
    cases this
  · rw [allocproc_proc hnp, if_neg hq]
  · rw [allocproc_proc hnp, if_pos rfl]
  · rw [allocproc_proc hnp, if_pos rfl]
    exact h.free np hfree

theorem wakeup1_wf (hw : a.WF) (chan : Chan) : (a.wakeup1 chan).WF := by
  unfold Lists.wakeup1
  split
  · exact hw
  · next p hp =>
    refine hw.requeue (List.mem_of_find?_eq_some hp) rfl (hw.prio p) ?_
    rintro i ⟨⟩
    exact hw.prio p

theorem exitBefore_state (hw : a.WF) (proc q : Slot) :
    ((a.exitBefore proc).proc q).state = (a.proc q).state ∨
      ((a.proc q).state.alive ∧ ((a.exitBefore proc).proc q).state.alive) := by
  have h₁ := a.wakeup1_resched hw (.ofProc (a.proc proc).parent)
  have h₂ := Lists.exitSearch_resched (wakeup1_wf hw (.ofProc (a.proc proc).parent)) proc
  have hadopt : (((a.wakeup1 (.ofProc (a.proc proc).parent)).adopt proc).proc q).state =
      ((a.wakeup1 (.ofProc (a.proc proc).parent)).proc q).state := by
    unfold Lists.adopt Lists.mapSlots
    dsimp only
    split <;> rfl
  have h₂q := (h₂.proc q).state
  rw [hadopt] at h₂q
  change ((a.exitBefore proc).proc q).state = _ ∨ _ ∧ ((a.exitBefore proc).proc q).state.alive at h₂q
  rcases (h₁.proc q).state with e | ⟨ha, hb⟩
  · rw [← e]
    exact h₂q
  · rcases h₂q with e | ⟨-, hc⟩
    · exact Or.inr ⟨ha, e ▸ hb⟩
    · exact Or.inr ⟨ha, hc⟩

theorem adopt_kept (pExit : Slot) : a.Kept (a.adopt pExit) where
  embryo p hp := by
    unfold Lists.adopt Lists.mapSlots
    dsimp only
    split
    · next hm =>
      refine ⟨hp, rfl, fun hn => ?_⟩
      rw [Lists.mem_adopted hm] at hn
      cases hn
    · exact ⟨hp, rfl, id⟩
  free hf p := by
    unfold Lists.adopt Lists.mapSlots
    dsimp only
    split
    · next hm =>
      intro hp
      have := hf p hp
      rw [Lists.mem_adopted hm] at this
      cases this
    · exact hf p

theorem exit_kept (hw : a.WF) {proc : Slot} (hp : (a.proc proc).state = .running) :
    a.Kept (a.exit proc) := by
  have h₁ := a.wakeup1_resched hw (.ofProc (a.proc proc).parent)
  have h₂ := Lists.exitSearch_resched (wakeup1_wf hw (.ofProc (a.proc proc).parent)) proc
  have hb : a.Kept (a.exitBefore proc) := h₁.kept.trans ((adopt_kept proc).trans h₂.kept)
  have hne : ((a.exitBefore proc).proc proc).state ≠ .embryo := by
    intro he
    rcases exitBefore_state hw proc proc with e | ⟨-, h⟩
    · rw [he, hp] at e
      cases e
    · rw [he] at h
      exact h
  refine hb.trans (.of_others fun p hne' => ?_)
  have he : p = proc := by
    by_contra he
    exact hne' (a.exit_proc_of_ne he)
  subst he
  refine ⟨hne, fun hz => ?_⟩
  rw [(a.exit_proc_self p).1] at hz
  cases hz

theorem waitTurn_kept (hw : a.WF) {proc : Slot} (hp : (a.proc proc).state = .running) (back : Bool) :
    a.Kept (a.waitTurn back proc).2 := by
  obtain ⟨b, d, hb, hbs, hd, hr⟩ := Lists.waitTurn_resched hw hp back
  refine (hb.kept.trans ?_).trans hr.kept
  rcases hd with rfl | ⟨z, hz, rfl⟩
  · exact (Lists.Resched.refl _).kept
  · refine .of_others fun p hp => ?_
    have he : p = z := by
      by_contra he
      exact hp (b.reap_proc_of_ne he)
    subst he
    exact ⟨by rw [hbs, hz]; simp [ListId.state], fun _ => by rw [b.reap_proc_self]⟩

/-- What an action does: it reschedules, or is a step of `fork`, an `exit` or a turn of `wait`. -/
inductive Kernel.Moves (l : Kernel Lists) : Action → Kernel Lists → Prop
  | resched {act : Action} {l' : Kernel Lists} (h : l.tab.Resched l'.tab)
      (hc : ∀ p np st, l'.ctl p = .fork np st → l.ctl p = .fork np st) : Moves l act l'
  | alloc {p np : Slot} (h : l.tab.allocproc.1 = some np) :
      Moves l (.forkAlloc p) (l.set p (.fork np .alloc) l.tab.allocproc.2)
  | fail {act : Action} {p np : Slot} {st : Stage}
      (hact : act = .kallocFail p np ∨ act = .copyuvmFail p np) (hc : l.ctl p = .fork np st)
      (hst : st ≠ .copied) : Moves l act (l.set p .idle (l.tab.allocFail np))
  | init {p np : Slot} (hc : l.ctl p = .fork np .alloc) :
      Moves l (.kallocOk p np) (l.set p (.fork np .init) (l.tab.allocInit np))
  | copy {p np : Slot} (hc : l.ctl p = .fork np .init) :
      Moves l (.copyuvmOk p np) (l.set p (.fork np .copied) (l.tab.forkCopy p np))
  | ready {p np : Slot} (hc : l.ctl p = .fork np .copied) :
      Moves l (.forkReady p np) (l.set p .idle (l.tab.forkReady np))
  | exit {p : Slot} (hp : (l.tab.proc p).state = .running) :
      Moves l (.exit p) { l with tab := l.tab.exit p }
  | wait {p : Slot} {c : Ctl} (hp : (l.tab.proc p).state = .running) (back : Bool)
      (hc : ∀ np st, c ≠ .fork np st) : Moves l (.wait p) (l.set p c (l.tab.waitTurn back p).2)

variable {act : Action}

theorem Kernel.moves {l' : Kernel Lists} (hw : l.tab.WF) (hc : l.canL act)
    (h : l.execL act = .ok l') : l.Moves act l' := by
  cases act with
  | tick => cases h; exact .resched ⟨rfl, fun p => .refl p _⟩ fun _ _ _ => id
  | scheduler =>
    obtain ⟨r, hr, rfl⟩ := map_ok h
    exact .resched ((Lists.scheduler_resched hw).of_ok hr) fun _ _ _ => id
  | wakeup chan => cases h; exact .resched (Lists.wakeup1_resched _ hw _) fun _ _ _ => id
  | yield p => cases h; exact .resched (Lists.yield_resched _ hc.1) fun _ _ _ => id
  | sleep p chan =>
    cases h
    exact .resched (Lists.sleep_resched _ hc.1 (by simp) (by simp)) fun _ _ _ hq =>
      (update_fork (by simp) hq).2
  | sleepReturn p =>
    cases h
    exact .resched (Lists.sleepReturn_resched _ hc.1) fun _ _ _ hq => (update_fork (by simp) hq).2
  | trapKill p => cases h; exact .resched (Lists.trapKill_resched _ p) fun _ _ _ => id
  | forkAlloc p =>
    unfold Kernel.execL at h
    cases hr : l.tab.allocproc.1 with
    | none =>
      rcases allocproc_cases l.tab with ⟨-, he⟩ | ⟨np, -, he⟩
      · simp only [hr, he, Except.ok.injEq] at h
        subst h
        exact .resched (.refl _) fun _ _ _ => id
      · rw [he] at hr
        cases hr
    | some np =>
      simp only [hr, Except.ok.injEq] at h
      subst h
      exact .alloc hr
  | kallocFail p np => cases h; exact .fail (.inl rfl) hc.2 (by simp)
  | copyuvmFail p np => cases h; exact .fail (.inr rfl) hc.2 (by simp)
  | kallocOk p np => cases h; exact .init hc.2
  | copyuvmOk p np => cases h; exact .copy hc.2
  | forkReady p np => cases h; exact .ready hc.2
  | exit p =>
    obtain ⟨-, rfl⟩ := Kernel.execL_exit h
    exact .exit hc.1
  | wait p => cases h; exact .wait hc.1 _ fun np st => by split <;> simp
  | kill p pid => cases h; exact .resched (Lists.kill_resched _ hw pid) fun _ _ _ => id
  | setpriority p pID prio =>
    obtain ⟨r, hr, rfl⟩ := map_ok h
    exact .resched ((Lists.setpriority_resched hw pID prio).of_ok hr) fun _ _ _ => id

/-- Every action leaves each `fork` under way the owner of its embryo. -/
theorem forks_step {l' : Kernel Lists} (hw : l.tab.WF) (hf : l.Forks)
    (hc : l.canL act) (h : l.execL act = .ok l') : l'.Forks := by
  cases Kernel.moves hw hc h with
  | resched h hctl => exact h.kept.forks hf hctl
  | alloc hnp => exact hf.begin hw hnp
  | @fail _ p np st _ hctl hst =>
    refine hf.leave hctl (fun q hq => ?_) fun _ => ?_
    · unfold Lists.allocFail
      rw [Lists.requeue_proc, Lists.modify_proc_of_ne _ _ hq]
    · unfold Lists.allocFail
      rw [Lists.requeue_proc, Lists.modify_proc_self]
      exact hf.parent p np _ hctl hst
  | @init p np hctl =>
    refine hf.hold (fun q st hq => hf.unique q p np st _ hq hctl) (fun q hq => ?_) ?_ ?_ ?_
    · exact Lists.modify_proc_of_ne _ _ hq
    · unfold Lists.allocInit
      rw [Lists.modify_proc_self]
      exact hf.embryo p np _ hctl
    · intro _
      unfold Lists.allocInit
      rw [Lists.modify_proc_self]
    · intro _
      unfold Lists.allocInit
      rw [Lists.modify_proc_self]
      exact hf.parent p np _ hctl (by simp)
  | @copy p np hctl =>
    refine hf.hold (fun q st hq => hf.unique q p np st _ hq hctl) (fun q hq => ?_) ?_ ?_
      fun hst => absurd rfl hst
    · exact Lists.modify_proc_of_ne _ _ hq
    · unfold Lists.forkCopy
      rw [Lists.modify_proc_self]
      exact hf.embryo p np _ hctl
    · intro _
      unfold Lists.forkCopy
      rw [Lists.modify_proc_self]
      exact hf.prio p np _ hctl (by simp)
  | ready hctl =>
    refine hf.leave hctl (fun q hq => ?_) fun hs => ?_
    · unfold Lists.forkReady
      rw [Lists.requeue_proc, Lists.modify_proc_of_ne _ _ hq]
    · unfold Lists.forkReady at hs
      rw [Lists.requeue_proc, Lists.modify_proc_self] at hs
      cases hs
  | exit hp => exact (exit_kept hw hp).forks hf fun _ _ _ => id
  | wait hp back hne => exact (waitTurn_kept hw hp back).forks_set hf _ hne

/-! ## Runs -/

/-- The lists that a table spells out. -/
def Kernel.lists (k : Kernel PTable) : Kernel Lists := ⟨k.tab.lists, k.ctl⟩

theorem KRep.lists_eq (h : KRep k l) : k.lists = l := by
  unfold Kernel.lists
  rw [h.rep.lists_eq, h.ctl]

/-- Every slot but the first is as `ptable` is at boot. -/
theorem userinit_proc_of_ne (ticks : BitVec 32) (hp : p ≠ 0) :
    (Lists.userinit ticks).proc p = {} := by
  unfold Lists.userinit
  rw [Lists.requeue_proc, Lists.modify_proc_of_ne _ _ hp, Lists.modify_proc_of_ne _ _ hp]
  unfold Lists.allocInit
  dsimp only
  rw [Lists.modify_proc_of_ne _ _ hp, allocproc_proc
    (show (Lists.allFree ticks).allocproc.1 = some 0 from rfl), if_neg hp]
  rfl

theorem init_forks (ticks : BitVec 32) : Kernel.Forks ⟨Lists.userinit ticks, fun _ => .idle⟩ := by
  refine ⟨by simp, by simp, by simp, by simp, fun p _ => ?_⟩
  by_cases hp : p = 0
  · subst hp
    rfl
  · show ((Lists.userinit ticks).proc p).parent = none
    rw [userinit_proc_of_ne ticks hp]

theorem init_krep (h : kernel.init k) : ∃ ticks, KRep k ⟨Lists.userinit ticks, fun _ => .idle⟩ := by
  obtain ⟨ticks, hs, hc⟩ := h
  obtain ⟨s, hs', hr, hw⟩ := userinit_sim ticks
  rw [hs] at hs'
  cases hs'
  exact ⟨ticks, hr, hw, hc⟩

theorem step_krep {k' : Kernel PTable} (hk : KRep k k.lists) (hf : k.lists.Forks)
    (h : kernel.step k act k') :
    k.lists.canL act ∧ k.lists.execL act = .ok k'.lists ∧ KRep k' k'.lists := by
  have hs := exec_sim hk hf h.1
  rw [h.2] at hs
  refine ⟨(hk.can_iff act).1 h.1, ?_⟩
  cases hl : k.lists.execL act with
  | error e =>
    rw [hl] at hs
    cases hs
  | ok l =>
    rw [hl] at hs
    obtain ⟨k₁, hk₁, hr⟩ := hs
    cases hk₁
    rw [hr.lists_eq]
    exact ⟨rfl, hr⟩

/-- Induction over the runs whose steps all meet `ok`, on the lists. -/
theorem kernel_invariant (ok : Kernel PTable → Action → Prop) {P : Kernel Lists → Prop}
    (h0 : ∀ ticks, P ⟨Lists.userinit ticks, fun _ => .idle⟩)
    (hs : ∀ k act l', KRep k k.lists → k.lists.Forks → P k.lists → ok k act → k.lists.canL act →
      k.lists.execL act = .ok l' → l'.tab.WF → P l')
    {k : Kernel PTable} (h : (kernel.restrict ok).Reach k) :
    KRep k k.lists ∧ k.lists.Forks ∧ P k.lists := by
  induction h with
  | init h =>
    obtain ⟨ticks, hk⟩ := init_krep h
    rw [hk.lists_eq]
    exact ⟨hk, init_forks ticks, h0 ticks⟩
  | step hr h ih =>
    obtain ⟨hk, hf, hP⟩ := ih
    obtain ⟨hc, he, hk'⟩ := step_krep hk hf h.2
    exact ⟨hk', forks_step hk.wf hf hc he, hs _ _ _ hk hf hP h.1 hc he hk'.wf⟩

theorem reach_krep (h : kernel.Reach k) : KRep k k.lists ∧ k.lists.Forks := by
  obtain ⟨hk, hf, -⟩ := kernel_invariant (fun _ _ => True) (P := fun _ => True)
    (fun _ => trivial) (fun _ _ _ _ _ _ _ _ _ _ => trivial) (h.restrict fun _ _ => trivial)
  exact ⟨hk, hf⟩

/-- The panics left: a process on a level that is not its priority, and an exiting init. -/
theorem execL_error (hw : l.tab.WF) {e : Panic} (h : l.execL act = .error e) :
    e = .assertPrio ∨ e = .initExiting := by
  cases act with
  | scheduler => exact Or.inl ((Lists.scheduler_resched hw).of_error (map_error h))
  | setpriority p pID prio =>
    exact Or.inl ((Lists.setpriority_resched hw pID prio).of_error (map_error h))
  | exit p =>
    unfold Kernel.execL at h
    dsimp only at h
    split at h
    · cases h
      exact Or.inr rfl
    · cases h
  | forkAlloc p =>
    unfold Kernel.execL at h
    dsimp only at h
    split at h <;> cases h
  | _ => cases h

theorem listInv_of_reach (h : kernel.Reach k) : k.tab.ListInv :=
  (listInv_iff _).2 ⟨(reach_krep h).1.rep, (reach_krep h).1.wf⟩

/-- In every state of every run the state lists are sound, and no action ends in the panic of
`changeState`, of `assertState` or of a list function, or follows a broken link. -/
theorem reach_listInv {k : Kernel PTable} (h : kernel.Reach k) :
    k.tab.ListInv ∧ ∀ act e, k.can act → k.exec act = .error e →
      e = .assertPrio ∨ e = .initExiting := by
  obtain ⟨hk, hf⟩ := reach_krep h
  refine ⟨listInv_of_reach h, fun act e hc he => ?_⟩
  have hs := exec_sim hk hf hc
  cases hl : k.lists.execL act with
  | error e' =>
    rw [hl, he] at hs
    cases hs
    exact execL_error hk.wf hl
  | ok l =>
    rw [hl, he] at hs
    obtain ⟨k', hk', -⟩ := hs
    cases hk'

/-- Init forks a child that is on a ready list. -/
theorem reach_listInv_forked : ∃ k, kernel.Reach k ∧ (k.tab.proc 1).state = .runnable ∧
    k.tab.ListInv := by
  obtain ⟨k, hk, hP⟩ := Kernel.exists_reach
    [.scheduler, .forkAlloc 0, .kallocOk 0 1, .copyuvmOk 0 1, .forkReady 0 1]
    (P := fun k => decide ((k.tab.proc 1).state = .runnable)) (by decide +kernel)
  exact ⟨k, hk, of_decide_eq_true hP, (reach_listInv hk).1⟩

end Xv6.Procs
