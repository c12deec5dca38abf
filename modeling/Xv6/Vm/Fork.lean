import Xv6.Proc.Invariant
import Xv6.Vm.Copy

/-!
# fork, with the process table and the memory

`fork` takes a slot, a page for the kernel stack and the pages of the child's address space.  When one
of them is missing it gives back the slot and the stack (`fork_spec`); the address space is given back
by `copyuvm`, except when there is no page for a table.
-/

namespace Xv6.Vm

open Function
open Procs (Slot PTable Lists Rep)

structure Machine where
  tab : PTable
  mem : Mem

/-- Kernel code that uses both; it stops with a panic of one of the two. -/
abbrev Kern := StateT Machine (Except (Procs.Panic ⊕ Panic))

def Kern.onMem {α : Type} (m : VM α) : Kern α := fun k =>
  match m k.mem with
  | .ok (a, s) => .ok (a, { k with mem := s })
  | .error e => .error (.inr e)

def Kern.onTab {α : Type} (f : PTable → Except Procs.Panic (α × PTable)) : Kern α := fun k =>
  match f k.tab with
  | .ok (a, t) => .ok (a, { k with tab := t })
  | .error e => .error (.inl e)

/-- A change of the table without a result. -/
def Kern.setTab (f : PTable → Except Procs.Panic PTable) : Kern Unit :=
  Kern.onTab fun t => (f t).map fun t' => ((), t')

/-- The slot and its kernel stack. -/
def allocproc : Kern (Option (Slot × Nat)) := do
  match ← Kern.onTab PTable.allocproc with
  | none => return none
  | some p =>
    match ← Kern.onMem kalloc with
    | none =>
      Kern.setTab (PTable.allocprocFail p)
      return none
    | some kstack =>
      Kern.setTab fun t => .ok (t.allocprocInit p)
      return some (p, kstack)

/-- `fork` by `proc`, which has the directory `pgdir` and the size `sz`; the new process comes with its
kernel stack and its directory, none is -1. -/
def fork [Layout] (proc : Slot) (pgdir sz : Nat) : Kern (Option (Slot × Nat × Nat)) := do
  match ← allocproc with
  | none => return none
  | some (np, kstack) =>
    match ← Kern.onMem (copyuvm pgdir sz) with
    | none =>
      Kern.onMem (kfree kstack)
      Kern.setTab (PTable.forkFail np)
      return none
    | some d =>
      Kern.setTab fun t => .ok (t.forkCopy proc np)
      Kern.setTab (PTable.forkReady np)
      return some (np, kstack, d)

/-! ## Running it -/

section
variable {k : Machine}

theorem onMem_ok {α : Type} {m : VM α} {a : α} {s : Mem} (h : m k.mem = .ok (a, s)) :
    Kern.onMem m k = .ok (a, { k with mem := s }) := by
  unfold Kern.onMem
  rw [h]

theorem onTab_ok {α : Type} {f : PTable → Except Procs.Panic (α × PTable)} {a : α} {t : PTable}
    (h : f k.tab = .ok (a, t)) : Kern.onTab f k = .ok (a, { k with tab := t }) := by
  unfold Kern.onTab
  rw [h]

theorem setTab_ok {f : PTable → Except Procs.Panic PTable} {t : PTable} (h : f k.tab = .ok t) :
    Kern.setTab f k = .ok ((), { k with tab := t }) := by
  refine onTab_ok ?_
  rw [h]
  rfl

end

/-- The slots of the free list are those of `a`. -/
def FreeSlots (t : PTable) (a : Lists) : Prop :=
  ∃ a' : Lists, Rep t a' ∧ a'.WF ∧ ∀ q, q ∈ a'.list .free ↔ q ∈ a.list .free

/-- A slot that `allocproc` has taken. -/
theorem allocproc_slot {a : Lists} (hw : a.WF) {np : Slot} (h : a.allocproc.1 = some np) :
    np ∈ a.list .free ∧ np ∈ a.allocproc.2.list .embryo ∧
    ∀ q, q ∈ a.allocproc.2.list .free ↔ q ≠ np ∧ q ∈ a.list .free := by
  rcases Procs.allocproc_cases a with ⟨h', -⟩ | ⟨np', hl, he⟩
  · rw [h] at h'
    cases h'
  · rw [he] at h
    cases h
    have hmem := List.mem_of_head? hl
    have hreq := hw.disjoint.mem_requeue hmem .embryo fun q => { q with state := .embryo }
    rw [he]
    refine ⟨hmem, (hreq .embryo np).2 (.inl ⟨rfl, rfl⟩), fun q => ?_⟩
    refine (hreq .free q).trans ⟨?_, .inr⟩
    rintro (⟨-, ⟨⟩⟩ | hq)
    exact hq

/-- Given back, it is where it was. -/
theorem allocFail_free {a b : Lists} (hw : b.WF) {np : Slot} (hp : np ∈ b.list .embryo)
    (hfree : np ∈ a.list .free) (hb : ∀ q, q ∈ b.list .free ↔ q ≠ np ∧ q ∈ a.list .free) (q : Slot) :
    q ∈ (b.allocFail np).list .free ↔ q ∈ a.list .free := by
  unfold Lists.allocFail
  rw [hw.disjoint.mem_requeue hp, hb]
  constructor
  · rintro (⟨rfl, -⟩ | ⟨-, -, hq⟩)
    · exact hfree
    · exact hq
  · intro hq
    by_cases he : q = np
    · exact .inl ⟨he, rfl⟩
    · exact .inr ⟨he, he, hq⟩

section
variable [Layout] {k : Machine} {a : Lists} {s s' : Mem} {own : Nat → Role} {l : List Nat}
  {p sz f : Nat} {np : Slot}

/-- The kernel stack is none of the directory's pages. -/
theorem popped_dir (hH : Heap s own (f :: l)) (hP : Dir s own p) :
    Dir (s.popped f) (update own f .held) p ∧
    ∀ u < 2 ^ 20, (s.popped f).pte p u = s.pte p u := by
  have he : s.taken f (s.page f) = s.popped f := by
    unfold Mem.taken Mem.setPage
    rw [show s.page f = (s.popped f).page f from rfl, update_eq_self]
  obtain ⟨-, hD, -, hpte⟩ := taken_spec hH hP (s.page f)
  rw [he] at hD hpte
  exact ⟨hD, hpte⟩

/-- What `allocproc` does: no slot is free, or there is no page for the stack and the slot is free
again, or it has both. -/
theorem allocproc_spec (hR : Rep k.tab a) (hw : a.WF) (hH : Heap k.mem own l) :
    (∃ k', allocproc k = .ok (none, k') ∧ FreeSlots k'.tab a ∧ Heap k'.mem own l) ∨
    ∃ np f l₁ t b, l = f :: l₁ ∧ k.mem.deny 0 = false ∧
      allocproc k = .ok (some (np, f), ⟨t, k.mem.popped f⟩) ∧ Rep t b ∧ b.WF ∧
      np ∈ b.list .embryo ∧ np ∈ a.list .free ∧
      ∀ q, q ∈ b.list .free ↔ q ≠ np ∧ q ∈ a.list .free := by
  obtain ⟨t, htab, hRt, hwt⟩ := Procs.allocproc_sim hR hw
  have hfirst := onTab_ok htab
  cases hslot : a.allocproc.1 with
  | none =>
    left
    rw [hslot] at hfirst
    refine ⟨{ k with tab := t }, seq_ok hfirst, ⟨_, hRt, hwt, fun q => ?_⟩, hH⟩
    rcases Procs.allocproc_cases a with ⟨-, he⟩ | ⟨np, -, he⟩
    · rw [he]
    · rw [he] at hslot
      cases hslot
  | some np =>
    rw [hslot] at hfirst
    obtain ⟨hfree, hemb, hlist⟩ := allocproc_slot hw hslot
    rcases kalloc_cases hH with ⟨-, hk⟩ | ⟨f, l₁, rfl, hd, hk, -⟩
    · left
      obtain ⟨t', hfail, hRt', hwt'⟩ := Procs.allocprocFail_sim hRt hwt hemb
      have hkalloc : Kern.onMem kalloc { k with tab := t } = .ok (none, ⟨t, k.mem.pass⟩) := onMem_ok hk
      have hset : Kern.setTab (PTable.allocprocFail np) ⟨t, k.mem.pass⟩ = .ok ((), ⟨t', k.mem.pass⟩) :=
        setTab_ok hfail
      refine ⟨⟨t', k.mem.pass⟩, ?_, ⟨_, hRt', hwt', ?_⟩, hH.pass⟩
      · unfold allocproc
        rw [seq_ok hfirst]
        show (Kern.onMem kalloc >>= _ : Kern _) _ = _
        rw [seq_ok hkalloc]
        exact seq_ok hset
      · exact allocFail_free hwt hemb hfree hlist
    · right
      obtain ⟨hRt', hwt'⟩ := Procs.allocprocInit_sim hRt hwt np
      have hkalloc : Kern.onMem kalloc { k with tab := t } = .ok (some f, ⟨t, k.mem.popped f⟩) :=
        onMem_ok hk
      have hset : Kern.setTab (fun t => .ok (t.allocprocInit np)) ⟨t, k.mem.popped f⟩ =
          .ok ((), ⟨t.allocprocInit np, k.mem.popped f⟩) := setTab_ok rfl
      refine ⟨np, f, l₁, t.allocprocInit np, _, rfl, hd, ?_, hRt', hwt', hemb, hfree, hlist⟩
      unfold allocproc
      rw [seq_ok hfirst]
      show (Kern.onMem kalloc >>= _ : Kern _) _ = _
      rw [seq_ok hkalloc]
      exact seq_ok hset

/-- `fork` returns, and when it returns -1 the slot is free again and the page of the kernel stack is
back on the free list. -/
theorem fork_spec (proc : Slot) (hR : Rep k.tab a) (hw : a.WF) (hH : Heap k.mem own l)
    (hP : Dir k.mem own p) (hsz : sz ≤ KERNBASE)
    (hpages : ∀ u, 4096 * u < sz → Present (k.mem.pte p u)) : ∃ r k' l',
      fork proc p sz k = .ok (r, k') ∧ Chain k'.mem.next k'.mem.freelist l' ∧
      (r = none → FreeSlots k'.tab a ∧ ∀ f, l.head? = some f → f ∈ l') := by
  rcases allocproc_spec hR hw hH with ⟨k', hrun, hslots, hH'⟩ |
    ⟨np, f, l₁, t, b, rfl, -, hrun, hRt, hwt, hemb, hfree, hlist⟩
  · exact ⟨none, k', l, seq_ok hrun, hH'.chain, fun _ => ⟨hslots, fun f hf => List.mem_of_head? hf⟩⟩
  · obtain ⟨hP₁, hpte₁⟩ := popped_dir hH hP
    have hlt : sz ≤ 2 ^ 31 := hsz
    obtain ⟨r, s', own', l', hcopy, hb, -⟩ := copyuvm_outcome (N := (sz + 4095) / 4096)
      (heap_around hH.popped p) (rooted_around hP₁) (dir_around hP₁) hsz (fun k => by omega)
      fun u hu => by
        rw [hpte₁ u (by omega)]
        exact hpages u (by omega)
    have hcopy' : Kern.onMem (copyuvm p sz) ⟨t, k.mem.popped f⟩ = .ok (r, ⟨t, s'⟩) := onMem_ok hcopy
    cases r with
    | none =>
      have hheld : around (update own f .held) p f = .held := by
        unfold around
        rw [update_self, ite_self]
      have hheld' : own' f = .held := by rw [hb.role f (by rw [hheld]; nofun), hheld]
      obtain ⟨hkf, hH'⟩ := kfree_spec hb.heap (f := f) (by rw [hheld']; nofun) (by rw [hheld']; nofun)
      have hkf' : Kern.onMem (kfree f) ⟨t, s'⟩ = .ok ((), ⟨t, s'.freed f⟩) := onMem_ok hkf
      obtain ⟨t', hfail, hRt', hwt'⟩ := Procs.forkFail_sim hRt hwt hemb
      have hset : Kern.setTab (PTable.forkFail np) ⟨t, s'.freed f⟩ = .ok ((), ⟨t', s'.freed f⟩) :=
        setTab_ok hfail
      refine ⟨none, ⟨t', s'.freed f⟩, f :: l', ?_, hH'.chain, fun _ => ⟨⟨_, hRt', hwt', ?_⟩, ?_⟩⟩
      · unfold fork
        rw [seq_ok hrun]
        show (Kern.onMem (copyuvm p sz) >>= _ : Kern _) _ = _
        rw [seq_ok hcopy']
        show (Kern.onMem (kfree f) >>= _ : Kern _) _ = _
        rw [seq_ok hkf']
        exact seq_ok hset
      · exact allocFail_free hwt hemb hfree hlist
      · intro g hg
        cases hg
        exact List.mem_cons_self
    | some d =>
      obtain ⟨hRc, hwc⟩ := Procs.forkCopy_sim hRt hwt proc np
      obtain ⟨t', hready, -, -⟩ := Procs.forkReady_sim hRc hwc hemb
      have hset₁ : Kern.setTab (fun t => .ok (t.forkCopy proc np)) ⟨t, s'⟩ =
          .ok ((), ⟨t.forkCopy proc np, s'⟩) := setTab_ok rfl
      have hset₂ : Kern.setTab (PTable.forkReady np) ⟨t.forkCopy proc np, s'⟩ = .ok ((), ⟨t', s'⟩) :=
        setTab_ok hready
      refine ⟨some (np, f, d), ⟨t', s'⟩, l', ?_, hb.heap.chain, nofun⟩
      unfold fork
      rw [seq_ok hrun]
      show (Kern.onMem (copyuvm p sz) >>= _ : Kern _) _ = _
      rw [seq_ok hcopy']
      show (Kern.setTab (fun t => .ok (t.forkCopy proc np)) >>= _ : Kern _) _ = _
      rw [seq_ok hset₁]
      exact seq_ok hset₂

/-- When `copyuvm` returns 0 the free list holds the pages it held before, if and only if the call of
`kalloc` that failed first was not one for a page table.  When `fork` returns -1 the slot is back on
the free list of the process table and the kernel stack is free. -/
theorem failed_fork_leaks (k : Machine) (a : Lists) (own : Nat → Role) (l : List Nat) (proc : Slot)
    (p sz : Nat) (hR : Rep k.tab a) (hw : a.WF) (hH : Heap k.mem own l) (hP : Dir k.mem own p)
    (hsz : sz ≤ KERNBASE) (hpages : ∀ u, 4096 * u < sz → Present (k.mem.pte p u)) :
    (∃ r s' l', copyuvm p sz k.mem = .ok (r, s') ∧ Chain s'.next s'.freelist l' ∧
      ((r = none → ∀ f, f ∈ l' ↔ f ∈ l) ↔
        ∀ n, k.mem.FirstFail l n → (copyPlan ((sz + 4095) / 4096))[n]? ≠ some .table)) ∧
    ∃ r k' l', fork proc p sz k = .ok (r, k') ∧ Chain k'.mem.next k'.mem.freelist l' ∧
      (r = none → FreeSlots k'.tab a ∧ ∀ f, l.head? = some f → f ∈ l') := by
  refine ⟨?_, fork_spec proc hR hw hH hP hsz hpages⟩
  have hlt : sz ≤ 2 ^ 31 := hsz
  have hH₁ := heap_around hH p
  obtain ⟨r, s', own', l', hrun, hb, hend⟩ := copyuvm_outcome (N := (sz + 4095) / 4096) hH₁
    (rooted_around hP) (dir_around hP) hsz (fun k => by omega) fun u hu => hpages u (by omega)
  refine ⟨r, s', l', hrun, hb.heap.chain, ?_⟩
  cases hend with
  | child d _ ht =>
    refine ⟨fun _ n hn => ?_, fun _ => nofun⟩
    rw [List.getElem?_eq_none (ht.le_firstFail hn)]
    nofun
  | clean n hf hn hown =>
    refine ⟨fun _ m hm => ?_, fun _ _ f => ?_⟩
    · rw [hm.unique hf]
      rcases hn with hn | hn
      · rw [hn]
        nofun
      · rw [hn]
        nofun
    · rw [← hb.heap.free, ← hH₁.free, hown]
  | leak n f hf hn hfree hlost =>
    refine ⟨fun hsame => ?_, fun hno => absurd hn (hno n hf)⟩
    have := (hsame rfl f).2 ((hH₁.free f).1 hfree)
    exact absurd ((hb.heap.free f).2 this) hlost

end

/-- A page is missing for the child's only page: nothing is lost. -/
theorem failed_fork_leaks_none : ∃ (_ : Layout) (k : Machine) (s' : Mem) (l l' : List Nat),
    Chain k.mem.next k.mem.freelist l ∧ copyuvm 1024 4096 k.mem = .ok (none, s') ∧
    Chain s'.next s'.freelist l' ∧ ∀ f, f ∈ l' ↔ f ∈ l := by
  let _ : Layout := sampleLayout
  obtain ⟨s, own, l, hH, hD, hpres, hlast⟩ := sample_parent 65 (by decide)
  obtain ⟨t, -, hR, hw⟩ := Procs.userinit_sim 0
  have hpages : ∀ u, 4096 * u < 4096 → Present (s.pte 1024 u) := by
    intro u hu
    obtain rfl : u = 0 := by omega
    exact hpres
  obtain ⟨⟨r, s', l', hrun, hchain, hiff⟩, -⟩ := failed_fork_leaks ⟨t, s⟩ _ own l 0 1024 4096 hR hw hH
    hD (by decide) hpages
  have hsame := hiff.2 fun n hn => by
    rw [hn.unique hlast]
    decide
  obtain ⟨r₁, s₁, own₁, l₁, hrun₁, -, hend⟩ := copyuvm_outcome (N := 1) (heap_around hH 1024)
    (rooted_around hD) (dir_around hD) (show 4096 ≤ KERNBASE by decide) (fun k => by omega)
    fun k hk => hpages k (by omega)
  cases hrun.symm.trans hrun₁
  cases hend with
  | child d _ ht => exact absurd (ht.le_firstFail hlast) (by decide)
  | clean _ _ _ _ => exact ⟨sampleLayout, ⟨t, s⟩, s', l, l', hH.chain, hrun, hchain, hsame rfl⟩
  | leak _ _ _ _ _ _ => exact ⟨sampleLayout, ⟨t, s⟩, s', l, l', hH.chain, hrun, hchain, hsame rfl⟩

/-- With one free page `setupkvm` gets the directory and no table, and the directory is lost. -/
theorem setupkvm_loses_directory : ∃ (_ : Layout) (s s' : Mem) (own : Nat → Role) (l l' : List Nat)
    (f : Nat), Heap s own l ∧ Dir s own 1024 ∧ Present (s.pte 1024 0) ∧
    copyuvm 1024 4096 s = .ok (none, s') ∧ Chain s'.next s'.freelist l' ∧ f ∈ l ∧ f ∉ l' := by
  let _ : Layout := sampleLayout
  obtain ⟨s, own, l, hH, hD, hpres, hlast⟩ := sample_parent 1 (by decide)
  have hH₁ := heap_around hH 1024
  obtain ⟨r, s', own', l', hrun, hb, hend⟩ := copyuvm_outcome (N := 1) hH₁ (rooted_around hD)
    (dir_around hD) (show 4096 ≤ KERNBASE by decide) (fun k => by omega) fun k hk => by
      obtain rfl : k = 0 := by omega
      exact hpres
  cases hend with
  | child d _ ht => exact absurd (ht.le_firstFail hlast) (by decide)
  | clean n hf hn _ =>
    rw [hf.unique hlast] at hn
    exact absurd hn (by decide)
  | leak n f hf hn hfree hlost =>
    exact ⟨sampleLayout, s, s', own, l, l', f, hH, hD, hpres, hrun, hb.heap.chain,
      (hH₁.free f).1 hfree, fun hf' => hlost ((hb.heap.free f).2 hf')⟩

end Xv6.Vm
