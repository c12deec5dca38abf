import Xv6.Proc.Refine

/-!
# The operations one level up: kill, exit and wait

`kill` and `exit` walk all lists in search order.  Inside, both walk a second
list (the sleep list, the zombie list) in a loop whose body returns at once, so
that whether the search goes on depends on whether that list is empty:

* empty: the search visits every slot, and its result says that nothing was found;
* not empty: it stops at the first match, and what is done beyond marking it is
  done only when the match is the head of the second list.

`wait` reaps the first zombie child: the child becomes the last cell of the free
list, which ends both loops.
-/

namespace Xv6.Procs

open List

variable {id : ListId} {pWait : Slot}

/-! ## The chain of searches -/

section
variable {F : ListId → PTable → Except Panic (Option Int × PTable)} {r : Int}

theorem searchStep (hF : ∀ id s x s', F id s = .ok (some x, s') → x ≠ r) (l₁ l₂ : List ListId)
    (s : PTable) :
    (forIn F (l₁ ++ l₂) s).map (PTable.orElse r) = (do
      let (rc, s) ← (forIn F l₁ s).map (PTable.orElse r)
      if rc = r then (forIn F l₂ s).map (PTable.orElse r) else .ok (rc, s)) := by
  have hv : ∀ l s x s', forIn F l s = .ok (some x, s') → x ≠ r := by
    intro l
    induction l with
    | nil =>
      intro s x s' h
      simp [forIn] at h
    | cons id l ih =>
      intro s x s' h
      simp only [forIn] at h
      split at h
      · cases h
      · next b t hb =>
        simp only [Except.ok.injEq, Prod.mk.injEq, Option.some.injEq] at h
        obtain ⟨rfl, rfl⟩ := h
        exact hF id s b t hb
      · exact ih _ x s' h
  rw [forIn_append]
  cases h : forIn F l₁ s with
  | error e => rfl
  | ok v =>
    obtain ⟨v, s'⟩ := v
    cases v with
    | none => simp [Except.map, PTable.orElse, bind, Except.bind]
    | some x =>
      have := hv l₁ s x s' h
      simp [Except.map, PTable.orElse, bind, Except.bind, this]

theorem forIn_singleton (id : ListId) (s : PTable) : forIn F [id] s = F id s := by
  simp only [forIn]
  split
  · next h => rw [h]
  · next h => rw [h]
  · next h => rw [h]

theorem forReady_eq (s : PTable) :
    PTable.forReady (fun i s => F (.ready i) s) s =
      forIn F ((List.range (maxPrio + 1)).map .ready) s := by
  unfold PTable.forReady
  generalize List.range (maxPrio + 1) = l
  induction l generalizing s with
  | nil => rfl
  | cons i l ih =>
    simp only [forIn, map_cons]
    split
    · rfl
    · rfl
    · exact ih _

/-- The five searches, each made when the ones before it found nothing. -/
def PTable.searchChain (F : ListId → PTable → Except Panic (Option Int × PTable)) (r : Int)
    (s : PTable) : Except Panic (Int × PTable) := do
  let (rc, s) ← (F .embryo s).map (PTable.orElse r)
  let (rc, s) ← (if rc = r then
    (PTable.forReady (fun i s => F (.ready i) s) s).map (PTable.orElse r) else .ok (rc, s))
  let (rc, s) ← (if rc = r then (F .sleep s).map (PTable.orElse r) else .ok (rc, s))
  let (rc, s) ← (if rc = r then (F .running s).map (PTable.orElse r) else .ok (rc, s))
  if rc = r then (F .zombie s).map (PTable.orElse r) else .ok (rc, s)

/-- They are one search of the lists in `searchOrder`. -/
theorem search_eq (hF : ∀ id s x s', F id s = .ok (some x, s') → x ≠ r) (s : PTable) :
    s.searchChain F r = (forIn F searchOrder s).map (PTable.orElse r) := by
  have hs : searchOrder = ((([.embryo] ++ (List.range (maxPrio + 1)).map .ready) ++ [.sleep]) ++
      [.running]) ++ [.zombie] := rfl
  rw [hs, searchStep hF, searchStep hF, searchStep hF, searchStep hF]
  simp only [PTable.searchChain, forIn_singleton, ← forReady_eq, bind_assoc]

end

/-- What a search over one list returns is what its body returns. -/
theorem forList_some {body : Slot → PTable → Except Panic (Option Int × PTable)} {v : Int}
    (hb : ∀ p s s' x, body p s = .ok (some x, s') → x = v) {s s' : PTable} {x : Int}
    (h : s.forList id body = .ok (some x, s')) : x = v := by
  have key : ∀ n c s, forEach Panic.hang PTable.next body n c s = .ok (some x, s') → x = v := by
    intro n
    induction n with
    | zero =>
      intro c s h
      cases c <;> simp [forEach] at h
    | succ n ih =>
      intro c s h
      cases c with
      | none => simp [forEach] at h
      | some p =>
        simp only [forEach] at h
        split at h
        · cases h
        · next b t hbt =>
          simp only [Except.ok.injEq, Prod.mk.injEq, Option.some.injEq] at h
          obtain ⟨rfl, rfl⟩ := h
          exact hb p s t b hbt
        · exact ih _ _ h
  exact key _ _ _ h

/-! ## A search with a second list -/

/-- What the searches of `kill` and `exit` do, and whether they return from inside. -/
def Lists.searchFirst (hit : Proc → Bool) (f : Globals → Proc → Proc) (second : ListId)
    (act : Slot → Lists → Lists) (a : Lists) : Bool × Lists :=
  match (a.list second).head? with
  | none => (false, a.mapSlots a.search fun q => if hit q then f a.toGlobals q else q)
  | some z =>
    match a.search.find? fun p => hit (a.proc p) with
    | none => (false, a)
    | some p =>
      let a := a.modify p (f a.toGlobals)
      (true, if p = z then act p a else a)

variable {p : Slot}

section
variable {hit : Proc → Bool} {f : Globals → Proc → Proc} {second : ListId}
  {act : Slot → PTable → Except Panic PTable} {rc : Int}

theorem searchBody_eq (p : Slot) (s : PTable) :
    s.searchBody hit f second act rc p =
      if hit (s.proc p) then
        match s.head second with
        | none => .ok (none, s.modify p (f s.toGlobals))
        | some z =>
          if p = z then (act p (s.modify p (f s.toGlobals))).map fun s => (some rc, s)
          else .ok (some rc, s.modify p (f s.toGlobals))
      else .ok (none, s) := by
  unfold PTable.searchBody PTable.forList
  simp only [PTable.modify_head]
  split
  · cases h : s.head second with
    | none => rfl
    | some z =>
      simp only [forEach]
      by_cases hp : p = z
      · simp only [hp, if_true]
        cases act z (s.modify z (f s.toGlobals)) <;> rfl
      · simp only [hp, if_false]
  · rfl

theorem searchBody_none {s s' : PTable} (h : s.searchBody hit f second act rc p = .ok (none, s')) :
    s'.next = s.next ∧ s'.head = s.head := by
  rw [searchBody_eq] at h
  split at h
  · split at h
    · cases h
      exact ⟨rfl, rfl⟩
    · split at h
      · unfold Except.map at h
        split at h <;> simp at h
      · simp at h
  · cases h
    exact ⟨rfl, rfl⟩

theorem searchBody_some {s s' : PTable} {x : Int}
    (h : s.searchBody hit f second act rc p = .ok (some x, s')) : x = rc := by
  rw [searchBody_eq] at h
  split at h
  · split at h
    · simp at h
    · split at h
      · unfold Except.map at h
        split at h <;> simp at h
        exact h.1.symm
      · simp at h
        exact h.1.symm
  · simp at h

variable {actA : Slot → Lists → Lists} {s : PTable} {a : Lists} {r : Int} (h : Rep s a) (hw : a.WF)
  (hst : ∀ g q, (f g q).state = q.state) (hpr : ∀ g q, (f g q).priority = q.priority)
  (hact : ∀ p s a, Rep s a → a.WF → p ∈ a.list second → Sim (act p s) (actA p a))
include h hw hst hpr hact

variable (hit rc) in
/-- The search over all lists, against `searchFirst`. -/
theorem searchFirst_sim :
    ∃ s', forIn (PTable.searchBody hit f second act rc) a.search s =
        .ok (if (a.searchFirst hit f second actA).1 then some rc else none, s') ∧
      Rep s' (a.searchFirst hit f second actA).2 ∧ (a.searchFirst hit f second actA).2.WF := by
  unfold Lists.searchFirst
  rw [← h.head_eq second]
  cases hs : s.head second with
  | none =>
    -- the second list is empty: the search writes every hit and goes on
    have hf := forIn_modify (PTable.searchBody hit f second act rc)
      (fun q => if hit q then f a.toGlobals q else q) s a.search hw.search_nodup (by
        intro p _ pr _
        rw [searchBody_eq]
        simp only [hs, h.globals]
        by_cases hp : hit (pr p)
        · simp [hp, PTable.modify]
        · simp [hp, PTable.modify])
    have hw' : (a.mapSlots a.search fun q => if hit q then f a.toGlobals q else q).WF := by
      refine hw.mapSlots (fun p _ => ?_) fun p _ => ?_
      · split
        · exact hst _ _
        · rfl
      · split
        · rw [hpr]
          exact hw.prio p
        · exact hw.prio p
    rw [hf]
    exact ⟨_, rfl, h.mapSlots _ _, hw'⟩
  | some z =>
    cases hf : a.search.find? fun p => hit (a.proc p) with
    | none =>
      have hno : ∀ p ∈ a.search, s.searchBody hit f second act rc p = .ok (none, s) := by
        intro p hp
        rw [searchBody_eq, h.proc]
        exact if_neg (find?_eq_none.1 hf p hp)
      have := forIn_skip _ a.search [] s hno
      rw [append_nil] at this
      rw [this]
      exact ⟨s, rfl, h, hw⟩
    | some p =>
      obtain ⟨hp, l₁, l₂, hl, hno⟩ := find?_eq_some_iff_append.1 hf
      have hskip : ∀ q ∈ l₁, s.searchBody hit f second act rc q = .ok (none, s) := by
        intro q hq
        have := hno q hq
        rw [searchBody_eq, h.proc]
        exact if_neg (by simpa using this)
      obtain ⟨h₁, w₁⟩ := modify_sim h hw (p := p) (f := f a.toGlobals) (hst _ _)
        (by rw [hpr]; exact hw.prio p)
      rw [hl, forIn_skip _ l₁ _ s hskip, forIn, searchBody_eq, h.proc, if_pos hp, hs, h.globals]
      by_cases hk : p = z
      · have hmem : p ∈ a.list second := by
          have := h.head_eq second
          rw [hs] at this
          exact hk ▸ mem_of_head? this.symm
        obtain ⟨s', hc, hr, hw'⟩ := hact p _ _ h₁ w₁ hmem
        simp only [if_pos hk, hc, Except.map]
        exact ⟨s', rfl, hr, hw'⟩
      · simp only [if_neg hk]
        exact ⟨_, rfl, h₁, w₁⟩

/-- The chain of searches with `searchBody`: one walk, against `searchFirst`. -/
theorem searchChain_sim (hrc : rc ≠ r) :
    ∃ s', s.searchChain (fun id s => s.forList id (PTable.searchBody hit f second act rc)) r =
        .ok (if (a.searchFirst hit f second actA).1 then rc else r, s') ∧
      Rep s' (a.searchFirst hit f second actA).2 ∧ (a.searchFirst hit f second actA).2.WF := by
  obtain ⟨s', hs, hr, hw'⟩ := searchFirst_sim hit rc h hw hst hpr hact
  have hF : ∀ (id : ListId) (s : PTable) (x : Int) (s' : PTable),
      s.forList id (PTable.searchBody hit f second act rc) = .ok (some x, s') → x ≠ r := by
    intro id s x s' hx
    rw [forList_some (fun p t t' y hy => searchBody_some hy) hx]
    exact hrc
  have hl := forLists_eq h (PTable.searchBody hit f second act rc)
    (fun p t t' ht => searchBody_none ht) searchOrder s rfl rfl
  have he := search_eq hF s
  rw [hl.trans hs] at he
  refine ⟨s', ?_, hr, hw'⟩
  rw [he]
  cases (a.searchFirst hit f second actA).1 <;> rfl

end

/-! ## kill and exit -/

namespace Lists

/-- The first process that has the pid, in search order. -/
def killTarget (pid : BitVec 32) (a : Lists) : Option Slot :=
  a.search.find? fun p => decide ((a.proc p).pid = pid)

def kill (pid : BitVec 32) (a : Lists) : Int × Lists :=
  let r := a.searchFirst (fun q => q.pid = pid) (fun _ q => { q with killed := true }) .sleep
    fun p a => a.requeue .sleep (.ready 0) p fun q => { q with state := .runnable }
  (if r.1 then 0 else -1, r.2)

/-- The searches of `exit`. -/
def exitSearch (pExit : Slot) (a : Lists) : Lists :=
  (a.searchFirst (fun q => q.parent = some pExit) (fun g q => { q with parent := g.initproc })
    .zombie fun _ a => a.wakeup1 (.ofProc a.initproc)).2

def exit (proc : Slot) (a : Lists) : Lists :=
  let a := a.wakeup1 (.ofProc (a.proc proc).parent)
  let a := a.exitSearch proc
  (a.requeue .running .zombie proc fun q => { q with state := .zombie }).sched proc

end Lists

section
variable {s : PTable} {a : Lists}

theorem kill_sim (h : Rep s a) (hw : a.WF) (pid : BitVec 32) :
    ∃ s', s.kill pid = .ok ((a.kill pid).1, s') ∧ Rep s' (a.kill pid).2 ∧ (a.kill pid).2.WF := by
  refine searchChain_sim h hw (fun _ _ => rfl) (fun _ _ => rfl) ?_ (by decide)
  intro p s a h hw hp
  exact changeState_sim h hw hp (.ready 0) (by rintro i ⟨⟩; exact Nat.zero_le _) "killSearchAll()"

theorem exitSearch_sim (h : Rep s a) (hw : a.WF) (pExit : Slot) :
    ∃ v s', s.exitSearch pExit = .ok (v, s') ∧ Rep s' (a.exitSearch pExit) ∧
      (a.exitSearch pExit).WF := by
  refine ⟨_, searchChain_sim h hw (fun _ _ => rfl) (fun _ _ => rfl) ?_ (by decide)⟩
  intro p s a h hw _
  have hinit : s.initproc = a.initproc := congrArg Globals.initproc h.globals
  rw [hinit]
  exact wakeup1_sim h hw _

theorem wakeup1_list (a : Lists) (chan : Chan) (hs : id ≠ .sleep) (hr : ∀ i, id ≠ .ready i) :
    (a.wakeup1 chan).list id = a.list id := by
  unfold Lists.wakeup1
  split
  · rfl
  · exact requeue_list_of_ne a _ _ hs (hr _)

theorem exitSearch_list (a : Lists) (pExit : Slot) (hs : id ≠ .sleep) (hr : ∀ i, id ≠ .ready i) :
    (a.exitSearch pExit).list id = a.list id := by
  unfold Lists.exitSearch Lists.searchFirst
  split
  · rfl
  · split
    · rfl
    · dsimp only
      split
      · exact wakeup1_list _ _ hs hr
      · rfl

theorem exit_sim (h : Rep s a) (hw : a.WF) {proc : Slot} (hp : proc ∈ a.list .running)
    (hi : a.initproc ≠ some proc) : Sim (s.exit proc) (a.exit proc) := by
  have hinit : s.initproc = a.initproc := congrArg Globals.initproc h.globals
  unfold PTable.exit Lists.exit
  rw [if_neg (by rw [hinit]; exact hi), h.proc]
  refine (wakeup1_sim h hw _).bind fun s₁ h₁ w₁ => ?_
  obtain ⟨v, s₂, hs₂, h₂, w₂⟩ := exitSearch_sim h₁ w₁ proc
  have hp₂ : proc ∈ ((a.wakeup1 (.ofProc (a.proc proc).parent)).exitSearch proc).list .running := by
    rw [exitSearch_list _ _ (by simp) (by simp), wakeup1_list _ _ (by simp) (by simp)]
    exact hp
  rw [hs₂]
  refine (changeState_sim h₂ w₂ hp₂ .zombie (by simp) _).bind fun s₃ h₃ w₃ => ?_
  refine sched_sim h₃ w₃ ?_
  rw [Lists.requeue_proc, Lists.modify_proc_self]
  simp

end

/-! ## wait -/

namespace Lists

/-- The first zombie child of `pWait`. -/
def zombieChild (pWait : Slot) (a : Lists) : Option Slot :=
  (a.list .zombie).find? fun p => decide ((a.proc p).parent = some pWait)

/-- Free the zombie `p`. -/
def reap (p : Slot) (a : Lists) : Lists :=
  (a.requeue .zombie .free p fun q => { q with state := .unused }).modify p fun q =>
    { q with pid := 0, parent := none, name := [], killed := false }

/-- Some process of the list has `pWait` as its parent. -/
def hasKid (pWait : Slot) (a : Lists) (l : List Slot) : Bool :=
  l.any fun p => decide ((a.proc p).parent = some pWait)

/-- One search pass of `wait`: the pid (`-1` when none is reaped), `havekids`, the table. -/
def waitPass (pWait : Slot) (a : Lists) : BitVec 32 × Bool × Lists :=
  match a.zombieChild pWait with
  | some p => ((a.proc p).pid, true, a.reap p)
  | none => (-1, a.hasKid pWait a.search, a)

def wait (proc : Slot) (a : Lists) : Option (BitVec 32) × Lists :=
  let w := a.waitPass proc
  if w.1 ≠ -1 then (some w.1, w.2.2)
  else if w.2.1 = false ∨ (w.2.2.proc proc).killed then (some (-1), w.2.2)
  else (none, w.2.2.sleep proc (.proc proc))

end Lists

section
variable {s : PTable} {a : Lists}

/-- The inner loop over the zombie list passes over a slot that is on another list. -/
theorem waitBody_other (h : Rep s a) (err : String) (hp : p ∉ a.list .zombie)
    (pid : BitVec 32) (kids : Bool) :
    PTable.waitBody err pWait p ⟨s, pid, kids⟩ =
      .ok (none, ⟨s, pid, kids || decide ((a.proc p).parent = some pWait)⟩) := by
  unfold PTable.waitBody
  simp only [h.proc]
  by_cases hpar : (a.proc p).parent = some pWait
  · have hchain := h.chain .zombie
    rw [← append_nil (a.list .zombie)] at hchain
    rw [if_neg (by simpa using hpar)]
    rw [forEach_skip _ (fun w : PTable.WaitSt => w.s.next) _ (a.list .zombie) [] NPROC (h.length_le _) _ _ hchain (by
      intro q hq
      exact if_neg fun e : p = q => hp (e ▸ hq))]
    simp [hpar, bind, Except.bind]
  · simp [hpar]

/-- A walk over a list of slots that are not zombies only looks for children. -/
theorem waitLoop_other (h : Rep s a) (err : String) (hid : id ≠ .zombie) (pid : BitVec 32)
    (kids : Bool) :
    PTable.waitLoop err pWait id ⟨s, pid, kids⟩ =
      .ok (none, ⟨s, pid, kids || a.hasKid pWait (a.list id)⟩) := by
  have hnz : ∀ p ∈ a.list id, p ∉ a.list .zombie := fun p hp hz =>
    hid (h.disjoint.unique _ _ p hp hz)
  unfold PTable.waitLoop
  rw [forEach_eq_forIn Panic.hang (fun w : PTable.WaitSt => w.s.next)
    (PTable.waitBody err pWait) (fun w => w.s = s) (a.list id) ?_ NPROC (h.length_le id) _ _ rfl
    (h.chain id)]
  · generalize a.list id = l at hnz
    induction l generalizing kids with
    | nil => simp [forIn, Lists.hasKid]
    | cons p l ih =>
      simp only [forIn, waitBody_other h err (hnz p mem_cons_self)]
      rw [ih _ fun q hq => hnz q (mem_cons_of_mem p hq)]
      simp [Lists.hasKid, Bool.or_assoc]
  · rintro p hp ⟨t, pid', kids'⟩ w' rfl hw'
    simp only at hw' h
    rw [waitBody_other h err (hnz p hp)] at hw'
    cases hw'
    exact ⟨rfl, fun _ _ => rfl⟩

/-- The walk over the zombie list without a child of `pWait` changes nothing. -/
theorem waitLoop_zombie_none (h : Rep s a) (err : String) (hz : a.zombieChild pWait = none)
    (pid : BitVec 32) (kids : Bool) :
    PTable.waitLoop err pWait .zombie ⟨s, pid, kids⟩ = .ok (none, ⟨s, pid, kids⟩) := by
  unfold PTable.waitLoop
  have hchain := h.chain .zombie
  rw [← append_nil (a.list .zombie)] at hchain
  rw [forEach_skip _ (fun w : PTable.WaitSt => w.s.next) _ (a.list .zombie) [] NPROC (h.length_le _) _ _ hchain (by
    intro p hp
    have := find?_eq_none.1 hz p hp
    unfold PTable.waitBody
    simp only [h.proc]
    exact if_pos (by simpa using this))]
  rw [head?_nil, forEach_none]

/-- The walk over the zombie list reaps the first child of `pWait`: its `next` is null once it
is the last cell of the free list, so that both loops end there. -/
theorem waitLoop_zombie_some (h : Rep s a) (hw : a.WF) (err : String)
    (hz : a.zombieChild pWait = some p) (pid : BitVec 32) (kids : Bool) :
    ∃ s', PTable.waitLoop err pWait .zombie ⟨s, pid, kids⟩ =
        .ok (none, ⟨s', (a.proc p).pid, true⟩) ∧
      Rep s' (a.reap p) ∧ (a.reap p).WF := by
  obtain ⟨hp, l₁, l₂, hl, hno⟩ := find?_eq_some_iff_append.1 hz
  have hpar : (a.proc p).parent = some pWait := by simpa using hp
  have hmem : p ∈ a.list .zombie := by rw [hl]; simp
  have hchain := h.chain .zombie
  have hlen := h.length_le .zombie
  rw [hl] at hchain
  rw [hl, length_append, length_cons] at hlen
  have hp₁ : p ∉ l₁ := by
    have hnd := hchain.nodup
    exact fun hm => (nodup_append.1 hnd).2.2 p hm p mem_cons_self rfl
  obtain ⟨n, hn⟩ : ∃ n, NPROC - l₁.length = n + 1 := ⟨NPROC - l₁.length - 1, by omega⟩
  obtain ⟨s₁, hs₁, h₁, hnext⟩ := changeState_rep h hmem (hw.state _ p hmem) .free .unused err
  have w₁ : (a.requeue .zombie .free p fun q => { q with state := .unused }).WF :=
    hw.requeue hmem rfl (hw.prio p) (by simp)
  obtain ⟨h₂, w₂⟩ := modify_sim h₁ w₁ (p := p)
    (f := fun q => { q with pid := 0, parent := none, name := [], killed := false }) rfl (w₁.prio p)
  refine ⟨_, ?_, h₂, w₂⟩
  unfold PTable.waitLoop
  -- the outer loop passes over the zombies of other parents
  rw [forEach_skip _ (fun w : PTable.WaitSt => w.s.next) _ l₁ (p :: l₂) NPROC (by omega) _ _ hchain (by
    intro q hq
    have := hno q hq
    unfold PTable.waitBody
    simp only [h.proc]
    exact if_pos (by simpa using this))]
  have hbody : PTable.waitBody err pWait p ⟨s, pid, kids⟩ =
      .ok (none, ⟨s₁.modify p fun q => { q with pid := 0, parent := none, name := [], killed := false },
        (a.proc p).pid, true⟩) := by
    unfold PTable.waitBody
    simp only [h.proc]
    rw [if_neg (by simpa using hpar)]
    -- the inner loop passes over the zombies before `p`
    rw [forEach_skip _ (fun w : PTable.WaitSt => w.s.next) _ l₁ (p :: l₂) NPROC (by omega) _ _ hchain
      (fun q hq => if_neg fun e : p = q => hp₁ (e ▸ hq))]
    rw [hn, head?_cons, forEach, if_pos rfl]
    simp only [ListId.state] at hs₁
    simp only [hs₁, h.proc, bind, Except.bind, PTable.modify_next, hnext, forEach_none]
  rw [hn, head?_cons, forEach, hbody]
  simp only [PTable.modify_next, hnext, forEach_none]

theorem waitPass_sim (h : Rep s a) (hw : a.WF) (proc : Slot) :
    ∃ s', s.waitPass proc = .ok ⟨s', (a.waitPass proc).1, (a.waitPass proc).2.1⟩ ∧
      Rep s' (a.waitPass proc).2.2 ∧ (a.waitPass proc).2.2.WF := by
  have hall : ∀ id, id ≠ .zombie → ∀ pid kids, PTable.waitSearchAll id proc ⟨s, pid, kids⟩ =
      .ok ⟨s, -1, kids || a.hasKid proc (a.list id)⟩ := by
    intro id hid pid kids
    unfold PTable.waitSearchAll
    simp only [waitLoop_other h _ hid, bind, Except.bind]
  have hready : ∀ pid kids, PTable.waitSearchReady proc ⟨s, pid, kids⟩ =
      .ok ⟨s, -1, kids || a.hasKid proc (((List.range (maxPrio + 1)).map .ready).flatMap a.list)⟩ := by
    intro pid kids
    have key : ∀ (l : List Nat) kids, forIn (fun i (w : PTable.WaitSt) =>
        PTable.waitLoop "waitSearchReady()" proc (.ready i) w) l ⟨s, -1, kids⟩ =
        .ok (none, ⟨s, -1, kids || a.hasKid proc ((l.map .ready).flatMap a.list)⟩) := by
      intro l
      induction l with
      | nil =>
        intro kids
        simp [forIn, Lists.hasKid]
      | cons i l ih =>
        intro kids
        simp only [forIn, waitLoop_other h _ (show ListId.ready i ≠ .zombie by simp), ih]
        simp [Lists.hasKid, Bool.or_assoc]
    unfold PTable.waitSearchReady PTable.forReady
    simp only [key, bind, Except.bind]
  unfold PTable.waitPass Lists.waitPass
  simp only [hall .embryo (by simp), hready, hall .sleep (by simp), hall .running (by simp), bind,
    Except.bind, if_true]
  unfold PTable.waitSearchAll
  cases hz : a.zombieChild proc with
  | none =>
    refine ⟨s, ?_, h, hw⟩
    simp only [waitLoop_zombie_none h _ hz, bind, Except.bind, Except.ok.injEq,
      PTable.WaitSt.mk.injEq, true_and]
    have hzk : a.hasKid proc (a.list .zombie) = false := by
      unfold Lists.hasKid
      rw [any_eq_false]
      intro p hp
      exact find?_eq_none.1 hz p hp
    simp only [Lists.hasKid] at hzk
    simp [Lists.hasKid, Lists.search, searchOrder, Bool.or_assoc, hzk]
  | some p =>
    obtain ⟨s', hs', hr, hw'⟩ := waitLoop_zombie_some h hw "waitSearchAll()" hz (-1)
      (false || a.hasKid proc (a.list .embryo) ||
        a.hasKid proc (((List.range (maxPrio + 1)).map .ready).flatMap a.list) ||
        a.hasKid proc (a.list .sleep) || a.hasKid proc (a.list .running))
    simp only [hs', bind, Except.bind]
    exact ⟨s', rfl, hr, hw'⟩

theorem reap_list (a : Lists) (p : Slot) (hz : id ≠ .zombie) (hf : id ≠ .free) :
    (a.reap p).list id = a.list id :=
  requeue_list_of_ne a p _ hz hf

theorem wait_sim (h : Rep s a) (hw : a.WF) {proc : Slot} (hp : proc ∈ a.list .running) :
    ∃ s', s.wait proc = .ok ((a.wait proc).1, s') ∧ Rep s' (a.wait proc).2 ∧
      (a.wait proc).2.WF := by
  obtain ⟨s₁, hs₁, h₁, w₁⟩ := waitPass_sim h hw proc
  have hp₁ : proc ∈ (a.waitPass proc).2.2.list .running := by
    unfold Lists.waitPass
    split
    · rw [reap_list _ _ (by simp) (by simp)]
      exact hp
    · exact hp
  unfold PTable.wait Lists.wait
  simp only [hs₁, bind, Except.bind, h₁.proc]
  split
  · exact ⟨s₁, rfl, h₁, w₁⟩
  · split
    · exact ⟨s₁, rfl, h₁, w₁⟩
    · obtain ⟨s₂, hs₂, h₂, w₂⟩ := sleep_sim h₁ w₁ hp₁ (.proc proc)
      simp only [hs₂]
      exact ⟨s₂, rfl, h₂, w₂⟩

end

end Xv6.Procs
