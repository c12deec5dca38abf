import Xv6.Exec.Stack
import Xv6.Fs.Names

/-!
# Loading the executable

While the file is locked `readi` leaves the file system alone, so that all of the file is read from
one state.  If no loadable program header wraps, every store of `loaduvm` goes into a user page of the
new directory, or, where `allocuvm` has left a hole, into the first page of physical memory
(`loadLoop_spec`).
-/

namespace Xv6.Exec

open Fs (ISlot Pid)
open Vm (Mem Layout Role Heap Dir Image Wrote Within VM KERNBASE)

/-! ## The two parts of the state -/

section
variable {α : Type} {k k' : State}

theorem onFs_ok {m : Fs.M α} {a : α} {s : Fs.State} (h : m k.fs = .ok (a, s)) :
    onFs m k = .ok (a, { k with fs := s }) := by
  unfold onFs
  rw [h]

theorem onMem_ok {m : VM α} {a : α} {s : Mem} (h : m k.mem = .ok (a, s)) :
    onMem m k = .ok (a, { k with mem := s }) := by
  unfold onMem
  rw [h]

theorem beginOp_eq : beginOp k = .ok ((), { k with
    fs := { k.fs with tx := true }, outstanding := k.outstanding + 1 }) := rfl

theorem endOp_eq : endOp k = .ok ((), { k with
    fs := { k.fs with tx := false }, outstanding := k.outstanding - 1 }) := rfl

theorem onFs_run {m : Fs.M α} {Q : Fs.Panic → Prop} {P : α → Fs.State → Prop}
    (h : Run Q P m k.fs) :
    Run (fun _ => True) (fun a k' => P a k'.fs ∧ k' = { k with fs := k'.fs }) (onFs m) k := by
  unfold Run
  cases hm : m k.fs with
  | ok x =>
    rw [onFs_ok hm]
    exact ⟨h.of_ok hm, rfl⟩
  | error e =>
    have herr : onFs m k = .error (.fs e) := by
      unfold onFs
      rw [hm]
    rw [herr]
    exact trivial

theorem onMem_run {m : VM α} {Q : Vm.Panic → Prop} {P : α → Mem → Prop} (h : Run Q P m k.mem) :
    Run (fun _ => True) (fun a k' => P a k'.mem ∧ k' = { k with mem := k'.mem }) (onMem m) k := by
  unfold Run
  cases hm : m k.mem with
  | ok x =>
    rw [onMem_ok hm]
    exact ⟨h.of_ok hm, rfl⟩
  | error e =>
    have herr : onMem m k = .error (.vm e) := by
      unfold onMem
      rw [hm]
    rw [herr]
    exact trivial

/-- Nothing but memory has changed, and not the kernel's own. -/
structure MemOnly (k k' : State) : Prop where
  fs : k'.fs = k.fs
  outstanding : k'.outstanding = k.outstanding
  proc : k'.proc = k.proc
  wild : k'.wild = k.wild

theorem MemOnly.refl (k : State) : MemOnly k k := ⟨rfl, rfl, rfl, rfl⟩

theorem MemOnly.trans {k₁ : State} (h : MemOnly k k₁) (h' : MemOnly k₁ k') : MemOnly k k' :=
  ⟨h'.fs.trans h.fs, h'.outstanding.trans h.outstanding, h'.proc.trans h.proc,
    h'.wild.trans h.wild⟩

theorem MemOnly.mem (k : State) (s : Mem) : MemOnly k { k with mem := s } := ⟨rfl, rfl, rfl, rfl⟩

end

/-! ## The file -/

/-- Reading the file changes nothing. -/
def Steady (sb : Fs.Superblock) (dev : Fs.Devsw) (ip : ISlot) (s : Fs.State) : Prop :=
  ∀ off n, ∃ r, Fs.readi sb dev ip off n s = .ok (r, s)

/-- The program headers, `n` of them from `off` on, have `Q`. -/
def Headers (sb : Fs.Superblock) (dev : Fs.Devsw) (ip : ISlot) (s : Fs.State)
    (Q : Proghdr → Prop) (n off : Nat) : Prop :=
  ∀ i < n, ∀ bs, Fs.readi sb dev ip ((off + PHSIZE * i) % 2 ^ 32) PHSIZE s = .ok (some bs, s) →
    bs.length = PHSIZE → Q (Proghdr.decode bs)

/-- The segment that is to be loaded does not wrap around the address space. -/
def Proghdr.NoWrap (ph : Proghdr) : Prop :=
  ph.type = ELF_PROG_LOAD → ph.filesz ≤ ph.memsz → ph.vaddr + ph.memsz < 2 ^ 32

section
variable {sb : Fs.Superblock} {dev : Fs.Devsw} {ip : ISlot} {s : Fs.State} {Q : Proghdr → Prop}
  {n off : Nat}

theorem Headers.head (h : Headers sb dev ip s Q (n + 1) off) (hoff : off < 2 ^ 32)
    {bs : List UInt8} (hr : Fs.readi sb dev ip off PHSIZE s = .ok (some bs, s))
    (hlen : bs.length = PHSIZE) : Q (Proghdr.decode bs) := by
  refine h 0 (Nat.succ_pos n) bs ?_ hlen
  rwa [Nat.mul_zero, Nat.add_zero, Nat.mod_eq_of_lt hoff]

theorem Headers.tail (h : Headers sb dev ip s Q (n + 1) off) :
    Headers sb dev ip s Q n ((off + PHSIZE) % 2 ^ 32) := by
  intro i hi bs hr hlen
  refine h (i + 1) (Nat.succ_lt_succ hi) bs ?_ hlen
  rw [← hr]
  congr 1
  dsimp only [PHSIZE]
  omega

end

section
variable [Layout] {sb : Fs.Superblock} {dev : Fs.Devsw} {ip : ISlot} {k : State}
  {own : Nat → Role} {l : List Nat} {d sz : Nat}

/-! ## loaduvm -/

/-- A page of the allocator, and the first page, are not the kernel's. -/
theorem not_kernelPage {s : Mem} (hH : Heap s own l) {f : Nat} (hf : f = 0 ∨ own f ≠ .outside) :
    ¬ kernelPage f := by
  unfold kernelPage
  rcases hf with rfl | hf
  · dsimp only [Vm.EXTMEM, Vm.PGSIZE, Vm.PHYSTOP]
    omega
  · have := hH.valid f hf
    unfold Vm.kfreeBad at this
    omega

/-- A store of `loaduvm` below `KERNBASE`. -/
theorem store_spec (hI : Image k.mem own l d sz) {v : Nat} (hv : v < 2 ^ 19) (bs : List UInt8) :
    ∃ k', store (Vm.pteAddr (k.mem.pte d v)) bs k = .ok ((), k') ∧ MemOnly k k' ∧
      Wrote own d k.mem k'.mem := by
  have htarget := hI.target hv
  have hnot : ¬ kernelPage (Vm.pteAddr (k.mem.pte d v)) := by
    refine not_kernelPage hI.heap (htarget.imp_right fun ⟨u, hu⟩ => ?_)
    rw [hu]
    nofun
  refine ⟨_, rfl, ⟨rfl, rfl, rfl, ?_⟩, Wrote.setPage (htarget.imp_left fun h0 => ?_) _⟩
  · show (k.wild || decide _) = k.wild
    rw [decide_eq_false fun h => hnot h.1, Bool.or_false]
  · rw [h0]
    exact hI.heap.outside_zero

theorem loaduvmLoop_spec {addr offset filesz : Nat} (hfit : addr + filesz ≤ KERNBASE)
    (hal : addr % 4096 = 0) (fuel : Nat) : ∀ {k : State} {i : Nat}, i % 4096 = 0 →
    Steady sb dev ip k.fs → Image k.mem own l d sz →
    Run (fun _ => True) (fun _ k' => MemOnly k k' ∧ Wrote own d k.mem k'.mem)
      (loaduvmLoop sb dev d addr ip offset filesz fuel i) k := by
  dsimp only [KERNBASE] at hfit
  induction fuel with
  | zero =>
    intro k i _ _ _
    exact Run.throw trivial
  | succ fuel ih =>
    intro k i hi hst hI
    rw [loaduvmLoop]
    refine Run.ite (fun hlt => ?_) fun _ => Run.pure ⟨.refl k, .refl own d _⟩
    obtain ⟨v, hv⟩ : ∃ v, addr + i = 4096 * v := ⟨(addr + i) / 4096, by omega⟩
    have hv19 : v < 2 ^ 19 := by omega
    have hva : (addr + i) % 2 ^ 32 = 4096 * v := by omega
    have hw := Vm.walkpgdir_false k.mem d (4096 * v)
    rw [Vm.pdx_page (by omega), Vm.ptx_page] at hw
    rw [hva]
    refine Run.bind_eq (onMem_ok hw) ?_
    cases ht : k.mem.table d (v / 1024) with
    | none => exact Run.throw trivial
    | some t =>
      have hentry : k.mem.entry t (v % 1024) = k.mem.pte d v := (Mem.pte_of_table ht).symm
      refine Run.get_bind ?_
      show Run _ _ (onFs _ >>= _) k
      obtain ⟨r, hr⟩ := hst ((offset + i) % 2 ^ 32)
        (if filesz - i < Vm.PGSIZE then filesz - i else Vm.PGSIZE)
      refine Run.bind_eq (onFs_ok hr) ?_
      cases r with
      | none => exact Run.pure ⟨.refl k, .refl own d _⟩
      | some bs =>
        obtain ⟨k₁, hstore, hm, hwr⟩ := store_spec hI hv19 bs
        rw [hentry]
        refine Run.bind_eq hstore ?_
        refine Run.ite (fun _ => Run.pure ⟨hm, hwr⟩) fun _ => ?_
        have hst₁ : Steady sb dev ip k₁.fs := by
          rw [hm.fs]
          exact hst
        refine (ih (k := k₁) ?_ hst₁ (hI.wrote hwr)).mono fun _ k' ⟨h1, h2⟩ =>
          ⟨hm.trans h1, hwr.trans h2⟩
        dsimp only [Vm.PGSIZE]
        omega

theorem loaduvm_spec {addr offset filesz : Nat} (hfit : addr + filesz ≤ KERNBASE)
    (hst : Steady sb dev ip k.fs) (hI : Image k.mem own l d sz) :
    Run (fun _ => True) (fun _ k' => MemOnly k k' ∧ Wrote own d k.mem k'.mem)
      (loaduvm sb dev d addr ip offset filesz) k := by
  unfold loaduvm
  refine Run.ite (fun _ => Run.throw trivial) fun hal => ?_
  exact loaduvmLoop_spec hfit (not_not.1 hal) (2 ^ 20 + 1) (Nat.zero_mod _) hst hI

/-! ## The loop over the program headers -/

/-- The segments are loaded, or the call fails; all changes are within the new directory. -/
theorem loadLoop_spec (n : Nat) : ∀ {k : State} {own : Nat → Role} {l : List Nat} {off sz : Nat},
    off < 2 ^ 32 → Steady sb dev ip k.fs → Headers sb dev ip k.fs Proghdr.NoWrap n off →
    Image k.mem own l d sz → sz < KERNBASE →
    Run (fun _ => True) (fun r k' => MemOnly k k' ∧ ∃ own' l', Within d k.mem own k'.mem own' l' ∧
      ∀ x, r = some x → x < KERNBASE ∧ Image k'.mem own' l' d x)
      (loadLoop sb dev d ip n off sz) k := by
  induction n with
  | zero =>
    intro k own l off sz _ _ _ hI hsz
    refine Run.pure ⟨.refl k, own, l, (Vm.Local.refl hI.heap hI.dir).within, fun x hx => ?_⟩
    cases hx
    exact ⟨hsz, hI⟩
  | succ n ih =>
    intro k own l off sz hoff hst hhd hI hsz
    have hhere : MemOnly k k ∧ ∃ own' l', Within d k.mem own k.mem own' l' ∧
        ∀ x, (none : Option Nat) = some x → x < KERNBASE ∧ Image k.mem own' l' d x :=
      ⟨.refl k, own, l, (Vm.Local.refl hI.heap hI.dir).within, nofun⟩
    have hnext : (off + PHSIZE) % 2 ^ 32 < 2 ^ 32 := Nat.mod_lt _ (by decide)
    rw [loadLoop]
    obtain ⟨r, hr⟩ := hst off PHSIZE
    refine Run.bind_eq (onFs_ok hr) ?_
    cases r with
    | none => exact Run.pure hhere
    | some bs =>
      show Run _ _ (if bs.length ≠ PHSIZE then _ else _) k
      refine Run.ite (fun _ => Run.pure hhere) fun hlen => ?_
      have hph := hhd.head hoff hr (not_not.1 hlen)
      generalize Proghdr.decode bs = ph at hph
      refine Run.ite (fun _ => ih hnext hst hhd.tail hI hsz) fun htype => ?_
      refine Run.ite (fun _ => Run.pure hhere) fun hle => ?_
      have hnw := hph (not_not.1 htype) (Nat.not_lt.1 hle)
      rw [Nat.mod_eq_of_lt hnw]
      obtain ⟨r, s₁, own₁, l₁, hrun, hloc, hr⟩ := Vm.allocuvm_image (ph.vaddr + ph.memsz) hI
        (Nat.le_of_lt hsz)
      refine Run.bind_eq (onMem_ok hrun) (Run.ite (fun _ => ?_) fun h0 => ?_)
      · exact Run.pure ⟨.mem k s₁, own₁, l₁, hloc.within, nofun⟩
      · obtain ⟨hlt, hmax, hI₁, -, -⟩ := hr h0
        refine Run.bind (loaduvm_spec (k := { k with mem := s₁ }) (by omega) hst hI₁) ?_
        rintro b k₂ ⟨hm, hw⟩
        have hm₂ := (MemOnly.mem k s₁).trans hm
        have hin₂ := hloc.within.trans (hw.within hI₁.heap hI₁.dir)
        cases b with
        | false => exact Run.pure ⟨hm₂, own₁, l₁, hin₂, nofun⟩
        | true =>
          rw [← hm₂.fs] at hst hhd
          refine (ih hnext hst hhd.tail (hI₁.wrote hw) (by omega)).mono ?_
          rintro x k' ⟨hm₃, own', l', hin₃, hx⟩
          exact ⟨hm₂.trans hm₃, own', l', hin₂.trans hin₃, hx⟩

end

end Xv6.Exec
