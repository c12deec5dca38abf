import Xv6.Exec.Spec

/-!
# Calls that succeed

Arguments that fit into the stack page are accepted (`setupStack_fits`), and a call all of whose parts
succeed returns 0 (`exec_returns`).
-/

namespace Xv6.Exec

open List
open Fs (ISlot Pid)
open Vm (Mem Layout Role Heap Dir Image Within Wrote VM KERNBASE PTE_U Present)

/-- The bytes that a string takes on the stack. -/
def room (arg : List UInt8) : Nat := (arg.length + 4) / 4 * 4

theorem pushDown_eq {sp : Nat} {arg : List UInt8} (hsp : sp < 2 ^ 32) (hal : sp % 4 = 0)
    (hle : room arg ≤ sp) : pushDown sp (arg.length + 1) = sp - room arg := by
  unfold pushDown
  unfold room at *
  omega

section
variable [Layout] {s : Mem} {own : Nat → Role} {l : List Nat} {d sz w : Nat}

/-- A copy into a page that is open to the user. -/
theorem copyout_into (hI : Image s own l d sz) (hw : w < 2 ^ 19) (hp : Present (s.pte d w))
    (hU : s.pte d w &&& PTE_U ≠ 0) {va : Nat} {buf : List UInt8} (hne : buf ≠ [])
    (hlow : 4096 * w ≤ va) (hhigh : va + buf.length ≤ 4096 * (w + 1)) :
    ∃ s', Vm.copyout d va buf s = .ok (true, s') ∧ Wrote own d s s' := by
  have hpos := length_pos_iff.2 hne
  obtain rfl : w = va / 4096 := by omega
  refine ⟨_, Vm.copyout_one hne (by omega) (by omega) hp hU, Wrote.setPage (.inr ⟨va / 4096, ?_⟩) _⟩
  exact (hI.dir.user _ _).2 ⟨hw, hp, rfl⟩

theorem pushArgs_fits (hw : w < 2 ^ 19) (argv : List (List UInt8)) : ∀ {s : Mem} {sp : Nat}
    {ptrs : List Nat}, Image s own l d sz → Present (s.pte d w) → s.pte d w &&& PTE_U ≠ 0 →
    sp % 4 = 0 → sp ≤ 4096 * (w + 1) → 4096 * w + (argv.map room).sum ≤ sp →
    ptrs.length + argv.length ≤ MAXARG → ∃ ptrs' s',
      pushArgs d argv sp ptrs s = .ok (some (sp - (argv.map room).sum, ptrs'), s') ∧
      ptrs'.length = ptrs.length + argv.length ∧ Wrote own d s s' := by
  induction argv with
  | nil =>
    intro s sp ptrs _ _ _ _ _ _ _
    exact ⟨ptrs, s, rfl, rfl, .refl own d s⟩
  | cons arg argv ih =>
    intro s sp ptrs hI hp hU hal hhigh hlow hfew
    rw [map_cons, sum_cons] at hlow
    rw [length_cons] at hfew
    have hroom : arg.length + 1 ≤ room arg ∧ room arg % 4 = 0 := by
      unfold room
      omega
    have hlen : (arg ++ [0]).length = arg.length + 1 := length_append
    obtain ⟨s₁, hcopy, hwr⟩ := copyout_into hI hw hp hU
      (append_ne_nil_of_right_ne_nil arg (cons_ne_nil 0 []))
      (show 4096 * w ≤ sp - room arg by omega) (by omega)
    have hpte := (hwr.dir hI.dir).2.2 w (by omega)
    have hfew' : (ptrs ++ [sp - room arg]).length + argv.length ≤ MAXARG := by
      rw [length_append, length_singleton]
      omega
    obtain ⟨ptrs', s', hrun, hcount, hwr'⟩ := ih (hI.wrote hwr) (by rwa [hpte]) (by rwa [hpte])
      (show (sp - room arg) % 4 = 0 by omega) (by omega) (by omega) hfew'
    refine ⟨ptrs', s', ?_, ?_, hwr.trans hwr'⟩
    · rw [pushArgs, if_neg (by omega), pushDown_eq (by omega) hal (by omega), seq_ok hcopy, if_pos rfl,
        hrun, map_cons, sum_cons, Nat.sub_sub]
    · rw [hcount, length_append, length_singleton, length_cons]
      omega

/-- With the two pages mapped the stack is made, and nothing else is touched. -/
theorem setupStack_fits {s₁ : Mem} {argv : List (List UInt8)} {newsz : Nat}
    (hnew : newsz = Vm.pgroundup sz + 8192) (hlt : newsz < KERNBASE) (hal : sz ≤ KERNBASE)
    (halloc : Vm.allocuvm d (Vm.pgroundup sz) newsz s = .ok (newsz, s₁))
    (hI : Image s₁ own l d newsz) (hguard : Present (s₁.pte d (newsz / 4096 - 2)))
    (hp : Present (s₁.pte d (newsz / 4096 - 1))) (hU : s₁.pte d (newsz / 4096 - 1) &&& PTE_U ≠ 0)
    (hfew : argv.length ≤ MAXARG)
    (hroom : (argv.map room).sum + 4 * (argv.length + 4) ≤ 4096) : ∃ s',
      setupStack d sz argv s =
        .ok (some (newsz, newsz - (argv.map room).sum - 4 * (argv.length + 4)), s') ∧
      Image s' own l d newsz ∧ Within d s₁ own s' own l ∧
      ∀ u < 2 ^ 20, u ≠ newsz / 4096 - 2 → s'.pte d u = s₁.pte d u := by
  dsimp only [KERNBASE] at hlt
  have hup := Vm.pgroundup_eq sz hal
  have hmod : (Vm.pgroundup sz + 2 * Vm.PGSIZE) % 2 ^ 32 = newsz := by
    dsimp only [Vm.PGSIZE]
    omega
  have hpages : newsz = 4096 * (newsz / 4096 - 2) + 8192 := by omega
  have hva : (newsz + (2 ^ 32 - 2 * Vm.PGSIZE)) % 2 ^ 32 = 4096 * (newsz / 4096 - 2) := by
    dsimp only [Vm.PGSIZE]
    omega
  rcases Vm.clearpteu_cases hI (v := newsz / 4096 - 2) (by omega) with
    ⟨hnone, -⟩ | ⟨s₂, hclear, hI₂, hloc₂, -, hpte₂⟩
  · obtain ⟨t, ht⟩ := Mem.exists_table hguard
    rw [ht] at hnone
    cases hnone
  have hstack := hpte₂ (newsz / 4096 - 1) (by omega) (by omega)
  have hfew₀ : ([] : List Nat).length + argv.length ≤ MAXARG := by
    rw [length_nil, Nat.zero_add]
    exact hfew
  obtain ⟨ptrs, s₃, hpush, hcount, hwr⟩ := pushArgs_fits (w := newsz / 4096 - 1) (by omega) argv hI₂
    (by rwa [hstack]) (by rwa [hstack]) (show newsz % 4 = 0 by omega) (by omega) (by omega) hfew₀
  rw [length_nil, Nat.zero_add] at hcount
  have hpte₃ := (hwr.dir hI₂.dir).2.2
  have hstack₃ := hpte₃ (newsz / 4096 - 1) (by omega)
  generalize hsp : newsz - (argv.map room).sum = sp at hpush
  generalize hframe : (0xffffffff :: ptrs.length ::
    (sp + (2 ^ 32 - (ptrs.length + 1) * 4)) % 2 ^ 32 :: ptrs ++ [0]) = ws
  have hwlen : (ws.flatMap bytes).length = 4 * (argv.length + 4) := by
    rw [words_length, ← hframe, ← hcount]
    simp
  obtain ⟨s₄, hcopy, hwr₄⟩ := copyout_into (hI₂.wrote hwr) (w := newsz / 4096 - 1) (by omega)
    (by rwa [hstack₃, hstack]) (by rwa [hstack₃, hstack])
    (show ws.flatMap bytes ≠ [] from length_pos_iff.1 (by omega))
    (show 4096 * _ ≤ sp - 4 * (argv.length + 4) by omega) (by omega)
  have hesp : (sp + (2 ^ 32 - (3 + ptrs.length + 1) * 4)) % 2 ^ 32 = sp - 4 * (argv.length + 4) := by
    omega
  have hwr' := hwr.trans hwr₄
  refine ⟨s₄, ?_, hI₂.wrote hwr', hloc₂.within.trans (hwr'.within hI₂.heap hI₂.dir), fun u hu hne => ?_⟩
  · unfold setupStack
    dsimp only
    rw [hmod, seq_ok halloc, if_neg (by omega), hva, seq_ok hclear, seq_ok hpush]
    dsimp only
    rw [hframe, hesp, seq_ok hcopy]
    rfl
  · rw [(hwr₄.dir (hI₂.wrote hwr).dir).2.2 u hu, hpte₃ u hu, hpte₂ u hu hne]

end

/-! ## One program header -/

section
variable [Layout] {sb : Fs.Superblock} {dev : Fs.Devsw} {ip : ISlot} {k k' : State} {m : Mem}
  {bs : List UInt8} {own : Nat → Role} {l : List Nat} {d sz n off : Nat}

/-- A segment that has been loaded. -/
theorem loadLoop_step {sz' : Nat} (n : Nat)
    (hread : Fs.readi sb dev ip off PHSIZE k.fs = .ok (some bs, k.fs)) (hlen : bs.length = PHSIZE)
    (htype : (Proghdr.decode bs).type = ELF_PROG_LOAD)
    (hfits : (Proghdr.decode bs).filesz ≤ (Proghdr.decode bs).memsz)
    (halloc : Vm.allocuvm d sz (((Proghdr.decode bs).vaddr + (Proghdr.decode bs).memsz) % 2 ^ 32) k.mem =
      .ok (sz', m)) (hpos : sz' ≠ 0)
    (hload : loaduvm sb dev d (Proghdr.decode bs).vaddr ip (Proghdr.decode bs).off
      (Proghdr.decode bs).filesz { k with mem := m } = .ok (true, k')) :
    loadLoop sb dev d ip (n + 1) off sz k =
      loadLoop sb dev d ip n ((off + PHSIZE) % 2 ^ 32) sz' k' := by
  rw [loadLoop, seq_ok (onFs_ok hread)]
  dsimp only
  rw [if_neg (fun h => h hlen), if_neg (fun h => h htype), if_neg (Nat.not_lt.2 hfits)]
  refine (seq_ok (onMem_ok halloc)).trans ?_
  rw [if_neg hpos, seq_ok hload, if_pos rfl]

/-- A program header that is cut off by the end of the file. -/
theorem loadLoop_short (n : Nat)
    (hread : Fs.readi sb dev ip off PHSIZE k.fs = .ok (some bs, k.fs)) (hlen : bs.length ≠ PHSIZE) :
    loadLoop sb dev d ip (n + 1) off sz k = .ok (none, k) := by
  rw [loadLoop, seq_ok (onFs_ok hread)]
  dsimp only
  rw [if_pos hlen]
  rfl

theorem loaduvm_nothing {addr : Nat} (hal : addr % Vm.PGSIZE = 0) :
    loaduvm sb dev d addr ip off 0 k = .ok (true, k) := by
  unfold loaduvm
  rw [if_neg (fun h => h hal), loaduvmLoop, if_neg (Nat.not_lt_zero _)]
  rfl

/-- A segment in the kernel's mapping of physical memory goes to that page, whoever owns it. -/
theorem loaduvm_direct (hI : Image k.mem own l d sz) {f : Nat} (hf : f < 0xE000) (hpos : 0 < n)
    (hn : n ≤ Vm.PGSIZE) (hoff : off < 2 ^ 32)
    (hread : Fs.readi sb dev ip off n k.fs = .ok (some bs, k.fs)) (hlen : bs.length = n) :
    loaduvm sb dev d (KERNBASE + Vm.PGSIZE * f) ip off n k = .ok (true, { k with
      mem := k.mem.setPage f ((k.mem.page f).memmove 0 bs)
      wild := k.wild || decide (kernelPage f ∧ bs ≠ []) }) := by
  obtain ⟨hpres, haddr⟩ := Vm.kpte_direct hf
  rw [← hI.kern _ (by omega) (by omega)] at hpres haddr
  obtain ⟨t, ht⟩ := Mem.exists_table hpres
  have hentry : k.mem.entry t ((2 ^ 19 + f) % 1024) = k.mem.pte d (2 ^ 19 + f) :=
    (Mem.pte_of_table ht).symm
  have hw := Vm.walkpgdir_false k.mem d (4096 * (2 ^ 19 + f))
  rw [Vm.pdx_page (by omega), Vm.ptx_page, ht] at hw
  dsimp only [KERNBASE, Vm.PGSIZE] at hn ⊢
  have hva : (0x80000000 + 4096 * f + 0) % 2 ^ 32 = 4096 * (2 ^ 19 + f) := by omega
  unfold loaduvm
  rw [if_neg (fun h => h (by dsimp only [Vm.PGSIZE]; omega)), loaduvmLoop, if_pos hpos, hva,
    seq_ok (onMem_ok hw)]
  refine seq_get.trans ?_
  dsimp only
  rw [hentry, haddr, Nat.add_zero, Nat.sub_zero, Nat.mod_eq_of_lt hoff]
  have hmin : (if n < Vm.PGSIZE then n else Vm.PGSIZE) = n := by
    dsimp only [Vm.PGSIZE]
    split
    · rfl
    · omega
  rw [hmin]
  refine (seq_ok (onFs_ok hread)).trans ?_
  refine (seq_ok (a := ()) rfl).trans ?_
  rw [if_neg (fun h => h hlen), show (2 : Nat) ^ 20 = 1048575 + 1 from rfl, loaduvmLoop,
    if_neg (by dsimp only [Vm.PGSIZE]; omega)]
  rfl

end

/-! ## The whole call -/

section
variable [Layout] {sb : Fs.Superblock} {dev : Fs.Devsw} {p : Pid} {junk path : List UInt8}
  {argv : List (List UInt8)} {k k₃ : State} {ip : ISlot} {s₂ s₄ : Fs.State} {bs : List UInt8}
  {d sz newsz sp : Nat} {m₁ m₂ m₃ : Mem}

/-- The process after a call that has succeeded. -/
def image (path : List UInt8) (st : Fs.Dinode) (q : Proc) (d sz entry sp : Nat) : Proc :=
  { q with
    name := (lastElem path).take (NAMESIZE - 1)
    pgdir := d
    sz := sz
    tf := { eip := entry, esp := sp }
    uid := if st.mode.getLsbD 9 then st.uid.toNat else q.uid }

/-- The header of an executable file that the process may execute. -/
structure Runs (sb : Fs.Superblock) (dev : Fs.Devsw) (p : Pid) (path : List UInt8) (k : State)
    (ip : ISlot) (s₂ : Fs.State) (bs : List UInt8) : Prop where
  opens : Opens sb dev p path k.fs ip s₂
  may : mayExec k.proc (s₂.ic ip).copy = true
  read : Fs.readi sb dev ip 0 ELFSIZE s₂ = .ok (some bs, s₂)
  length : bs.length = ELFSIZE
  magic : (Elfhdr.decode bs).magic = ELF_MAGIC

/-- Up to the first program header. -/
theorem Runs.exec_eq (h : Runs sb dev p path k ip s₂ bs)
    (hkvm : Vm.setupkvm k.mem = .ok (some d, m₁)) : exec sb dev p junk path argv k = (do
      match ← loadLoop sb dev d ip (Elfhdr.decode bs).phnum (Elfhdr.decode bs).phoff 0 with
      | none => bad (some d) (some ip)
      | some sz =>
        onFs (Fs.iunlockput ip)
        endOp
        match ← onMem (setupStack d sz argv) with
        | none => bad (some d) none
        | some (sz, sp) =>
          commit path (s₂.ic ip).copy d sz (Elfhdr.decode bs).entry sp
          return true : X Bool)
      { k with fs := s₂, outstanding := k.outstanding + 1, mem := m₁ } := by
  obtain ⟨⟨s₁, hn, hl⟩, hmay, hread, hlen, hmagic⟩ := h
  unfold exec
  rw [seq_ok beginOp_eq, seq_ok (onFs_ok hn)]
  show (onFs (Fs.ilock ip) >>= _ : X Bool) _ = _
  rw [seq_ok (onFs_ok hl), seq_get]
  dsimp only
  rw [if_neg (by rw [hmay]; nofun), seq_ok (onFs_ok hread)]
  dsimp only [Option.getD_some]
  rw [if_neg (by rw [hlen]; omega), if_neg (by rw [hmagic]; exact fun h => h rfl)]
  exact seq_ok (onMem_ok (k := { k with fs := s₂, outstanding := k.outstanding + 1 }) hkvm)

/-- All parts of the call succeed. -/
theorem exec_returns (h : Runs sb dev p path k ip s₂ bs)
    (hkvm : Vm.setupkvm k.mem = .ok (some d, m₁))
    (hload : loadLoop sb dev d ip (Elfhdr.decode bs).phnum (Elfhdr.decode bs).phoff 0
      { k with fs := s₂, outstanding := k.outstanding + 1, mem := m₁ } = .ok (some sz, k₃))
    (hproc : k₃.proc = k.proc) (hput : Fs.iunlockput ip k₃.fs = .ok ((), s₄))
    (hstack : setupStack d sz argv k₃.mem = .ok (some (newsz, sp), m₂))
    (hfree : Vm.freevm k.proc.pgdir m₂ = .ok ((), m₃)) : ∃ k',
      exec sb dev p junk path argv k = .ok (true, k') ∧ k'.mem = m₃ ∧
      k'.proc = image path (s₂.ic ip).copy k.proc d newsz (Elfhdr.decode bs).entry sp := by
  rw [← hproc] at hfree ⊢
  refine ⟨{ k₃ with
    fs := { s₄ with tx := false }
    outstanding := k₃.outstanding - 1
    mem := m₃
    proc := image path (s₂.ic ip).copy k₃.proc d newsz (Elfhdr.decode bs).entry sp }, ?_, rfl, rfl⟩
  rw [h.exec_eq hkvm, seq_ok hload]
  show (onFs (Fs.iunlockput ip) >>= _ : X Bool) k₃ = _
  rw [seq_ok (onFs_ok hput), seq_ok endOp_eq]
  refine (seq_ok (onMem_ok (k := { k₃ with
    fs := { s₄ with tx := false }, outstanding := k₃.outstanding - 1 }) hstack)).trans ?_
  exact seq_ok (onMem_ok (k := { k₃ with
    fs := { s₄ with tx := false }
    outstanding := k₃.outstanding - 1
    mem := m₂
    proc := image path (s₂.ic ip).copy k₃.proc d newsz (Elfhdr.decode bs).entry sp }) hfree)

/-- A program header cannot be read, and everything is given back. -/
theorem exec_fails (h : Runs sb dev p path k ip s₂ bs)
    (hkvm : Vm.setupkvm k.mem = .ok (some d, m₁))
    (hload : loadLoop sb dev d ip (Elfhdr.decode bs).phnum (Elfhdr.decode bs).phoff 0
      { k with fs := s₂, outstanding := k.outstanding + 1, mem := m₁ } = .ok (none, k₃))
    (hfree : Vm.freevm d k₃.mem = .ok ((), m₂)) (hput : Fs.iunlockput ip k₃.fs = .ok ((), s₄)) :
    ∃ k', exec sb dev p junk path argv k = .ok (false, k') ∧ k'.wild = k₃.wild := by
  refine ⟨{ k₃ with
    fs := { s₄ with tx := false }
    outstanding := k₃.outstanding - 1
    mem := m₂ }, ?_, rfl⟩
  rw [h.exec_eq hkvm, seq_ok hload]
  show (onMem (Vm.freevm d) >>= _ : X Bool) k₃ = _
  rw [seq_ok (onMem_ok hfree)]
  show (onFs (Fs.iunlockput ip) >>= _ : X Bool) _ = _
  rw [seq_ok (onFs_ok (k := { k₃ with mem := m₂ }) hput)]
  rfl

end

end Xv6.Exec
