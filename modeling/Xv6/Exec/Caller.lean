import Xv6.Exec.Fits
import Xv6.Fs.FileBytes

/-!
# What the caller of `exec` sees

A call that returns 0 has put the arguments on the new stack (`exec_delivers_argv`), and every call
gives back the inode, its lock and the transaction, and a failed one changes nothing of the process
(`exec_restores`).  Both need that no loadable segment of the file wraps: `exec` adds `vaddr` and
`memsz` without a check, so that a segment in the kernel's half of the address space passes
`allocuvm`, and `loaduvm` then writes the file's bytes to any physical page.
-/

namespace Xv6.Exec

open Fs (ISlot Pid)
open Vm (Mem Layout Role Heap Dir Image Within Belongs KERNBASE PTE_U Present sampleLayout pool poolOwn
  poolList sparse)

/-! ## A file to execute -/

/-- The header of a file with `n` program headers. -/
def elf (n : Nat) : List UInt8 :=
  bytes ELF_MAGIC ++ List.replicate 24 0 ++ bytes ELFSIZE ++ List.replicate 12 0 ++ bytes n ++
    List.replicate 4 0

def segment (off vaddr filesz memsz : Nat) : List UInt8 :=
  [ELF_PROG_LOAD, off, vaddr, 0, filesz, memsz, 0, 0].flatMap bytes

theorem word_of_bytes {w : Nat} (hw : w < 2 ^ 32) : (UInt8.ofNat w).toNat +
    2 ^ 8 * (UInt8.ofNat (w / 2 ^ 8)).toNat + 2 ^ 16 * (UInt8.ofNat (w / 2 ^ 16)).toNat +
    2 ^ 24 * (UInt8.ofNat (w / 2 ^ 24)).toNat = w := by
  simp only [UInt8.toNat_ofNat']
  omega

theorem decode_segment {off vaddr filesz memsz : Nat} (h1 : off < 2 ^ 32) (h2 : vaddr < 2 ^ 32)
    (h3 : filesz < 2 ^ 32) (h4 : memsz < 2 ^ 32) :
    Proghdr.decode (segment off vaddr filesz memsz) = ⟨ELF_PROG_LOAD, off, vaddr, filesz, memsz⟩ := by
  show Proghdr.mk _ _ _ _ _ = _
  congr 1
  · exact word_of_bytes h1
  · exact word_of_bytes h2
  · exact word_of_bytes h3
  · exact word_of_bytes h4

/-- The file `f` has the contents `c`, its owner may execute it, and it can be closed. -/
def runnable (c : List UInt8) (s : Fs.State) : Bool :=
  decide (∀ t, (s.ic t).ref = 0 → (s.ic t).busy = false) &&
  match Fs.namei Fs.mkfsSb Fs.nullDev 0 [102] { s with tx := true } with
  | .ok (some ip, s₁) =>
    match Fs.ilock ip s₁ with
    | .ok (_, s₂) =>
      match Fs.iunlockput ip s₂ with
      | .ok _ => decide (s₂.disk.content Fs.mkfsSb (s₂.ic ip).inum = c ∧
          (s₂.ic ip).copy.type = Fs.T_FILE ∧ (s₂.ic ip).copy.uid = 0 ∧
          (s₂.ic ip).copy.mode.getLsbD 6 = true)
      | .error _ => false
    | .error _ => false
  | _ => false

/-- The process 0 has created `f` with the contents `c`. -/
def created (c : List UInt8) : Option Fs.State :=
  Fs.runs Fs.mkfsSb Fs.nullDev [(0, .openFile [102] (Fs.O_CREATE ||| Fs.O_RDWR)), (0, .write 0 c)]
    (Fs.boot Fs.rootImage)

/-- A calling process with the directory of `sparse`. -/
def caller (s : Fs.State) (m : Mem) : State where
  fs := s
  outstanding := 0
  mem := m
  proc := { pgdir := 1024, sz := 0, name := [], tf := { eip := 0, esp := 0 }, uid := 0, gid := 0 }
  wild := false

/-- `exec` of the file `f` with the contents `c` opens `ip`. -/
structure Found (c : List UInt8) (P : ISlot → Nat) (B : ISlot → Bool) (s : Fs.State) (ip : ISlot)
    (s₂ s₄ : Fs.State) : Prop where
  calm : Calm Fs.mkfsSb P B s
  opens : Opens Fs.mkfsSb Fs.nullDev 0 [102] s ip s₂
  owner : (s₂.ic ip).copy.uid = 0
  mode : (s₂.ic ip).copy.mode.getLsbD 6 = true
  read : ∀ off n, off ≤ c.length → off + n < 2 ^ 32 →
    Fs.readi Fs.mkfsSb Fs.nullDev ip off n s₂ = .ok (some ((c.drop off).take n), s₂)
  close : Fs.iunlockput ip s₂ = .ok ((), s₄)

theorem exists_found (c : List UInt8) (h : (created c).any (runnable c) = true) :
    ∃ P B s ip s₂ s₄, Found c P B s ip s₂ s₄ := by
  obtain ⟨s, hs, hp⟩ := Fs.exists_reach Fs.mkfsSb Fs.nullDev Fs.rootImage_mkfs.wellFormed h
  have hgood := (Fs.reach_idle hs).good
  rw [runnable, Bool.and_eq_true] at hp
  obtain ⟨hidle, hp⟩ := hp
  have hidle := of_decide_eq_true hidle
  have hgood₀ : Fs.Good Fs.mkfsSb .any s.holders [] { s with tx := true } := hgood.congr rfl rfl
  have hcwd : ∀ p c, (s.proc p).cwd = some c → 0 < s.holders c := fun p c => Fs.holders_cwd
  split at hp
  · next ip s₁ hn =>
    split at hp
    · next s₂ hl =>
      split at hp
      · next s₄ hput =>
        obtain ⟨hcont, htype, hown, hmode⟩ := of_decide_eq_true hp
        have hnamei : Run (Fs.Fault False True) _ (Fs.namei Fs.mkfsSb Fs.nullDev 0 [102]) _ :=
          Fs.namei_spec 0 [102] hgood₀ False.elim (hcwd 0)
        have hg₁ := (hnamei.of_ok hn).2.2.2 ip rfl
        have hlock : Run (Fs.Fault False True) _ (Fs.ilock ip) s₁ :=
          Fs.ilock_spec hg₁ (Fs.count_head_pos ip []) False.elim
        obtain ⟨hg₂, -, -, hvalid⟩ := hlock.of_ok hl
        have hcopy := hg₂.copy (Fs.count_head_pos ip []) hvalid
        have hsize : (s₂.disk.ino (s₂.ic ip).inum).size = c.length := by
          rw [← hcont, Fs.content_length]
        refine ⟨s.holders, fun t => (s.ic t).busy, s, ip, s₂, s₄.2, ⟨hgood, ⟨fun _ => rfl, hidle⟩, hcwd⟩,
          ⟨s₁, hn, hl⟩, hown, hmode, fun off n hoff hlt => ?_, hput⟩
        rw [Fs.readi_good hg₂ (Fs.count_head_pos ip []) hvalid (by rw [htype]; decide), hcopy,
          Fs.content_read (by omega), hcont, if_neg]
        unfold Fs.Rejected
        omega
      · cases hp
    · cases hp
  · cases hp

variable {c : List UInt8} {P : ISlot → Nat} {B : ISlot → Bool} {ip : ISlot}

theorem Found.runs {s : Fs.State}
    {s₂ s₄ : Fs.State} (h : Found c P B s ip s₂ s₄) (m : Mem) (hlen : ELFSIZE ≤ c.length)
    (hmagic : (Elfhdr.decode (c.take ELFSIZE)).magic = ELF_MAGIC) :
    Runs Fs.mkfsSb Fs.nullDev 0 [102] (caller s m) ip s₂ (c.take ELFSIZE) := by
  refine ⟨h.opens, ?_, h.read 0 ELFSIZE (Nat.zero_le _) (by decide), ?_, hmagic⟩
  · unfold mayExec
    rw [h.owner, if_pos (by rfl)]
    exact h.mode
  · rw [List.length_take]
    omega

/-- The file is the only one that `exec` reads, so its headers decide. -/
theorem Found.noWrap {s : Fs.State}
    {s₂ s₄ : Fs.State} (h : Found c P B s ip s₂ s₄) (junk : List UInt8)
    (hnone : (Elfhdr.decode (c.take ELFSIZE)).phnum = 0) :
    NoWrap Fs.mkfsSb Fs.nullDev 0 junk [102] s := by
  intro ip' s' r hopen hread i hi
  obtain ⟨s₁, hn, hl⟩ := h.opens
  obtain ⟨s₁', hn', hl'⟩ := hopen
  rw [hn] at hn'
  cases hn'
  rw [hl] at hl'
  cases hl'
  rw [h.read 0 ELFSIZE (Nat.zero_le _) (by decide)] at hread
  cases hread
  rw [Option.getD_some, List.drop_zero, hnone] at hi
  exact absurd hi (Nat.not_lt_zero i)

/-! ## A segment that wraps -/

/-- A directory with one page, and two pages left. -/
theorem pool_segment : ∃ (_ : Layout) (d : Nat) (m₁ m₂ : Mem) (own : Nat → Role),
    Vm.setupkvm (pool 69) = .ok (some d, m₁) ∧ Vm.allocuvm d 0 4096 m₁ = .ok (4096, m₂) ∧
    Heap (pool 69) (poolOwn 69) (poolList 69) ∧ poolOwn 69 d = .free ∧
    Within d (pool 69) (poolOwn 69) m₂ own (poolList 2) ∧ Image m₂ own (poolList 2) d 4096 ∧
    m₂.Exact d 4096 ∧ ∀ n, m₂.deny n = false := by
  let _ : Layout := sampleLayout
  obtain ⟨d, m₁, own₁, hkvm, hb, hI₁, hE₁⟩ := Vm.pool_kvm 4 (by decide)
  have hplan := Vm.plan_eq_userPlan hb.low (show 1 ≤ 2 ^ 19 by decide)
  have hdeny : ∀ n, m₁.deny n = false := by
    intro n
    rw [hb.took.deny, Vm.pool_deny]
  obtain ⟨m₂, own₂, l₂, halloc, hg⟩ := Vm.allocuvm_enough hI₁.heap hI₁.dir hE₁ (Nat.zero_le 4096)
    (by decide) hdeny (show (m₁.plan d 0 1).length ≤ _ by rw [hplan]; decide)
  obtain ⟨hI₂, hE₂⟩ := hg.image hI₁ hE₁ (Nat.zero_le 4096) (by decide)
  have hl : l₂ = poolList 2 := by
    rw [hg.took.list]
    show (poolList 4).drop (m₁.plan d 0 1).length = poolList 2
    rw [hplan]
    rfl
  subst hl
  refine ⟨sampleLayout, d, m₁, m₂, own₂, hkvm, halloc, Vm.pool_heap 69 (by decide), hb.was,
    hb.loc.within.trans hg.loc.within, hI₂, hE₂, fun n => ?_⟩
  rw [hg.took.deny, hdeny]

variable {own : Nat → Role}

/-- The second segment of the file is written to the page `f`. -/
theorem Found.loads [Layout] {s : Fs.State}
    {s₂ s₄ : Fs.State} (h : Found c P B s ip s₂ s₄) (n f off : Nat)
    (bs : List UInt8) {d : Nat} {k : State} {m : Mem} {l : List Nat} (hfs : k.fs = s₂)
    (hfirst : (c.drop 52).take 32 = segment 0 0 0 4096)
    (hsecond : (c.drop 84).take 32 =
      segment off (KERNBASE + 4096 * f) bs.length (2 ^ 32 - (KERNBASE + 4096 * f)))
    (hbs : (c.drop off).take bs.length = bs) (hlen : 116 ≤ c.length) (hoff : off ≤ 116)
    (hf : f < 0xE000) (hpos : 0 < bs.length) (hle : bs.length ≤ 4096)
    (halloc : Vm.allocuvm d 0 4096 k.mem = .ok (4096, m)) (hI : Image m own l d 4096) :
    loadLoop Fs.mkfsSb Fs.nullDev d ip (n + 2) 52 0 k =
      loadLoop Fs.mkfsSb Fs.nullDev d ip n 116 4096 { k with
        mem := m.setPage f ((m.page f).memmove 0 bs)
        wild := k.wild || decide (kernelPage f ∧ bs ≠ []) } := by
  subst hfs
  dsimp only [KERNBASE] at hsecond
  have hread₁ := h.read 52 32 (by omega) (by omega)
  have hread₂ := h.read 84 32 (by omega) (by omega)
  rw [hfirst] at hread₁
  rw [hsecond] at hread₂
  have hdec₁ := decode_segment (show 0 < 2 ^ 32 by decide) (show 0 < 2 ^ 32 by decide)
    (show 0 < 2 ^ 32 by decide) (show 4096 < 2 ^ 32 by decide)
  have hdec₂ := decode_segment (show off < 2 ^ 32 by omega)
    (show 0x80000000 + 4096 * f < 2 ^ 32 by omega) (show bs.length < 2 ^ 32 by omega)
    (show 2 ^ 32 - (0x80000000 + 4096 * f) < 2 ^ 32 by omega)
  have hshrink : Vm.allocuvm d 4096
      ((0x80000000 + 4096 * f + (2 ^ 32 - (0x80000000 + 4096 * f))) % 2 ^ 32) m = .ok (4096, m) := by
    rw [show (0x80000000 + 4096 * f + (2 ^ 32 - (0x80000000 + 4096 * f))) % 2 ^ 32 = 0 by omega]
    rfl
  refine (loadLoop_step (n + 1) hread₁ rfl (by rw [hdec₁]) (by rw [hdec₁]; exact Nat.zero_le _)
    (by rw [hdec₁]; exact halloc) (by decide) (by rw [hdec₁]; exact loaduvm_nothing rfl)).trans ?_
  refine loadLoop_step n hread₂ rfl (by rw [hdec₂]) (by rw [hdec₂]; dsimp only; omega)
    (by rw [hdec₂]; exact hshrink) (by decide) ?_
  have hread₃ := h.read off bs.length (by omega) (by omega)
  rw [hbs] at hread₃
  rw [hdec₂]
  exact loaduvm_direct (k := { k with mem := m }) hI hf hpos hle (show off < 2 ^ 32 by omega) hread₃ rfl

/-! ## The arguments -/

/-- Two entries for the caller's page table. -/
def smuggled : List UInt8 := [4096 * 2000 + 7, 4096 * 2001 + 7].flatMap bytes

/-- The caller's directory and table, and the two pages that the new entries name. -/
def planted (f : Nat) : Role :=
  if f = 1024 then .dir else if f = 1025 then .table 1024 1
  else if f = 2000 then .user 1024 1024 else if f = 2001 then .user 1024 1025 else .outside

theorem planted_cases (f : Nat) : f = 1024 ∧ planted f = .dir ∨ f = 1025 ∧ planted f = .table 1024 1 ∨
    f = 2000 ∧ planted f = .user 1024 1024 ∨ f = 2001 ∧ planted f = .user 1024 1025 ∨
    (f ≠ 1024 ∧ f ≠ 1025 ∧ f ≠ 2000 ∧ f ≠ 2001) ∧ planted f = .outside := by
  by_cases h1 : f = 1024
  · exact .inl ⟨h1, by rw [h1]; rfl⟩
  · by_cases h2 : f = 1025
    · exact .inr (.inl ⟨h2, by rw [h2]; rfl⟩)
    · by_cases h3 : f = 2000
      · exact .inr (.inr (.inl ⟨h3, by rw [h3]; rfl⟩))
      · by_cases h4 : f = 2001
        · exact .inr (.inr (.inr (.inl ⟨h4, by rw [h4]; rfl⟩)))
        · refine .inr (.inr (.inr (.inr ⟨⟨h1, h2, h3, h4⟩, ?_⟩)))
          unfold planted
          rw [if_neg h1, if_neg h2, if_neg h3, if_neg h4]

section
variable {s : Mem} (hdir : s.page 1024 = sparse.page 1024)
  (htab : s.page 1025 = (sparse.page 1025).memmove 0 smuggled)
include htab

theorem planted_entry (j : Nat) (hj : j < 1024) :
    s.entry 1025 j = if j = 0 then 4096 * 2000 + 7 else if j = 1 then 4096 * 2001 + 7 else 0 := by
  unfold Mem.entry
  rw [htab]
  by_cases h0 : j = 0
  · rw [h0]
    rfl
  · by_cases h1 : j = 1
    · rw [h1]
      rfl
    · have hkeep : ((sparse.page 1025).memmove 0 smuggled).word j = sparse.entry 1025 j := by
        have hout : ∀ k, 8 ≤ k → (sparse.page 1025).memmove 0 smuggled k = sparse.page 1025 k := by
          intro k hk
          have hlen : smuggled.length = 8 := rfl
          exact if_neg (by omega)
        show (_ + _ + _ + _ : Nat) = _ + _ + _ + _
        rw [hout _ (by omega), hout _ (by omega), hout _ (by omega), hout _ (by omega)]
      have hpte := Vm.sparse_pte (1024 + j)
      rw [Mem.pte_of_table (by rw [Vm.sparse_table, if_pos (by omega)]), if_neg (by omega),
        show (1024 + j) % 1024 = j by omega] at hpte
      rw [hkeep, hpte, if_neg h0, if_neg h1]

include hdir

theorem planted_dir : Dir s planted 1024 := by
  have htable : ∀ i, s.table 1024 i = if i = 1 then some 1025 else none := by
    intro i
    rw [← Vm.sparse_table]
    unfold Mem.table Mem.entry
    rw [hdir]
  have hpte : ∀ v, s.pte 1024 v =
      if v = 1024 then 4096 * 2000 + 7 else if v = 1025 then 4096 * 2001 + 7 else 0 := by
    intro v
    have ht := htable (v / 1024)
    by_cases h1 : v / 1024 = 1
    · rw [if_pos h1] at ht
      rw [Mem.pte_of_table ht, planted_entry htab _ (by omega)]
      by_cases h2 : v = 1024
      · rw [if_pos (by omega), if_pos h2]
      · rw [if_neg (by omega), if_neg h2]
        by_cases h3 : v = 1025
        · rw [if_pos (by omega), if_pos h3]
        · rw [if_neg (by omega), if_neg h3]
    · rw [if_neg h1] at ht
      rw [Mem.pte_of_none ht, if_neg (by omega), if_neg (by omega)]
  refine ⟨⟨rfl, fun t i => ?_⟩, fun f v => ?_⟩
  · rw [htable]
    constructor
    · intro h
      rcases planted_cases t with ⟨-, h'⟩ | ⟨rfl, h'⟩ | ⟨-, h'⟩ | ⟨-, h'⟩ | ⟨-, h'⟩ <;> cases h.symm.trans h'
      exact ⟨by decide, rfl⟩
    · rintro ⟨-, h⟩
      split at h
      · next hi =>
        cases h
        rw [hi]
        rfl
      · cases h
  · rw [hpte]
    constructor
    · intro h
      rcases planted_cases f with ⟨-, h'⟩ | ⟨-, h'⟩ | ⟨rfl, h'⟩ | ⟨rfl, h'⟩ | ⟨-, h'⟩ <;> cases h.symm.trans h'
      · exact ⟨by decide, by decide, by decide⟩
      · exact ⟨by decide, by decide, by decide⟩
    · rintro ⟨-, hp, ha⟩
      by_cases h1 : v = 1024
      · rw [if_pos h1] at ha
        obtain rfl : 2000 = f := ha
        rw [h1]
        rfl
      · rw [if_neg h1] at ha hp
        by_cases h2 : v = 1025
        · rw [if_pos h2] at ha
          obtain rfl : 2001 = f := ha
          rw [h2]
          rfl
        · rw [if_neg h2] at hp
          exact absurd hp Vm.not_present_zero

end

/-- The last two pages become the guard and the stack. -/
theorem last_pages [Layout] {s : Mem} {d : Nat}
    (hI : Image s own (poolList 2) d 4096) (hE : s.Exact d 4096) (hdeny : ∀ n, s.deny n = false) :
    ∃ s' own' x, Vm.allocuvm d 4096 12288 s = .ok (12288, s') ∧ Image s' own' [] d 12288 ∧
      s'.Exact d 12288 ∧ Within d s own s' own' [] ∧ (x = 2000 ∨ x = 2001) ∧
      s'.pte d 2 = Vm.mkpte x Vm.PTE_WU ∧ ∀ f, f = 2000 ∨ f = 2001 → ∃ u, own' f = .user d u := by
  have hfree : ∀ f, own f = .free ↔ f = 2000 ∨ f = 2001 := by
    intro f
    rw [hI.heap.free]
    show f ∈ [2001, 2000] ↔ _
    rw [List.mem_cons, List.mem_singleton, or_comm]
  obtain ⟨t, ht⟩ := Mem.exists_table ((hE 0 (by decide)).2 (by decide))
  have hplan : s.plan d 1 2 = [.data, .data] := by
    show (List.range' 1 2).flatMap (s.calls d 1) = _
    have hcalls : ∀ v, v / 1024 = 0 → s.calls d 1 v = [.data] := by
      intro v hv
      unfold Mem.calls
      rw [hv, if_neg]
      rintro ⟨h0, -⟩
      exact nomatch ht.symm.trans h0
    simp [List.range', hcalls]
  obtain ⟨s', own', l', halloc, hg⟩ := Vm.allocuvm_enough hI.heap hI.dir hE
    (show 4096 ≤ 12288 by decide) (by decide) hdeny
    (show (s.plan d 1 2).length ≤ _ by rw [hplan]; decide)
  obtain ⟨hI', hE'⟩ := hg.image hI hE (by decide) (by decide)
  have hl : l' = [] := by
    rw [hg.took.list]
    show (poolList 2).drop (s.plan d 1 2).length = []
    rw [hplan]
    rfl
  subst hl
  obtain ⟨x, hx, -, hpte, -⟩ := hg.new 2 (by decide) (by decide)
  refine ⟨s', own', x, halloc, hI', hE', hg.loc.within, (hfree x).1 hx, hpte, fun f hf => ?_⟩
  have hff := (hfree f).2 hf
  rcases hg.fresh f hff with h | ⟨i, h⟩ | h
  · exact absurd ((hI'.heap.free f).1 h) List.not_mem_nil
  · -- no table was missing
    exfalso
    obtain ⟨hi, hti⟩ := (hI'.dir.table f i).1 h
    have hsome : s.table d i ≠ none := by
      rcases hg.range i (by rw [hti]; nofun) with h' | ⟨u, h1, h2, hu⟩
      · exact h'
      · have hu3 : u < 3 := h2
        obtain rfl : i = 0 := by omega
        rw [show s.table d 0 = some t from ht]
        nofun
    rw [hg.table i hsome] at hti
    exact nomatch hff.symm.trans ((hI.dir.table f i).2 ⟨hi, hti⟩)
  · exact h

/-- A page on the free list does not start with 0xffffffff. -/
theorem free_page_ne [Layout] {s : Mem} {l : List Nat} {d x : Nat}
    (hH : Heap s own l) (hx : own x = .free) (hpte : s.pte d 2 = Vm.mkpte x Vm.PTE_WU) :
    ¬ Holds s d 8192 (bytes 0xffffffff) := by
  intro hhold
  have hbyte : ∀ i < 4, s.page x i = 255 := by
    intro i hi
    have h := hhold i hi
    have hload : s.load d (8192 + i) = some (s.page x i) := by
      unfold Mem.load
      rw [show (8192 + i) / 4096 = 2 by omega, hpte, show (8192 + i) % 4096 = i by omega]
      dsimp only
      rw [Vm.pteAddr_mkpte (by decide)]
      exact if_pos ⟨Vm.present_mkpte (by decide), Vm.mkpte_user x⟩
    rw [hload] at h
    have hall : (bytes 0xffffffff)[i]? = some 255 := by
      have : i = 0 ∨ i = 1 ∨ i = 2 ∨ i = 3 := by omega
      rcases this with rfl | rfl | rfl | rfl <;> rfl
    rw [hall] at h
    exact Option.some.inj h
  have hword : s.entry x 0 = 0xffffffff := by
    show (s.page x 0).toNat + 256 * (s.page x 1).toNat + 65536 * (s.page x 2).toNat +
      16777216 * (s.page x 3).toNat = _
    rw [hbyte 0 (by decide), hbyte 1 (by decide), hbyte 2 (by decide), hbyte 3 (by decide)]
    rfl
  have hnext : s.next x = some 524287 := by
    unfold Mem.next
    rw [hword]
    rfl
  have hmem := hH.chain.mem_next ((hH.free x).1 hx) hnext
  have hvalid := hH.valid 524287 (by rw [(hH.free _).2 hmem]; nofun)
  apply hvalid
  right
  decide

/-- Freeing the caller's pages frees the stack page of `d`, and `d` still maps it. -/
theorem planted_freed [Layout] {s : Mem} {d x : Nat}
    (hH : Heap (pool 69) (poolOwn 69) (poolList 69)) (hI : Image s own [] d 12288)
    (hdir : s.page 1024 = sparse.page 1024)
    (htab : s.page 1025 = (sparse.page 1025).memmove 0 smuggled) (hd : poolOwn 69 d = .free)
    (hrole : own 1024 = .dir) (hrole' : own 1025 = .table 1024 1)
    (huser : ∀ f, f = 2000 ∨ f = 2001 → ∃ u, own f = .user d u) (hx : x = 2000 ∨ x = 2001)
    (hpte : s.pte d 2 = Vm.mkpte x Vm.PTE_WU) : ∃ s' own' l', Vm.freevm 1024 s = .ok ((), s') ∧
      Heap s' own' l' ∧ own' x = .free ∧ s'.pte d 2 = Vm.mkpte x Vm.PTE_WU := by
  have hplanted : Heap s planted [] := by
    refine ⟨hI.heap.chain, fun f => ⟨fun h => ?_, nofun⟩, fun f h => ?_⟩
    · rcases planted_cases f with ⟨-, h'⟩ | ⟨-, h'⟩ | ⟨-, h'⟩ | ⟨-, h'⟩ | ⟨-, h'⟩ <;> cases h.symm.trans h'
    · apply hH.valid f
      rcases planted_cases f with ⟨rfl, -⟩ | ⟨rfl, -⟩ | ⟨rfl, -⟩ | ⟨rfl, -⟩ | ⟨-, h'⟩
      · decide
      · decide
      · decide
      · decide
      · exact absurd h' h
  obtain ⟨s', own', l', hfree, hH', -, hgone, hrest⟩ := Vm.freevm_spec hplanted (planted_dir hdir htab)
  have hne : d ≠ 1024 := by
    rintro rfl
    exact nomatch hd.symm.trans (show poolOwn 69 1024 = .dir by decide)
  -- the directory and the tables of `d` are not among the pages that are freed
  have hkeep : ∀ f, f = d ∨ (∃ i, own f = .table d i) → s'.page f = s.page f := by
    intro f hf
    have hnot : own f = .dir ∧ f = d ∨ ∃ i, own f = .table d i := by
      rcases hf with rfl | h
      · exact .inl ⟨hI.dir.self, rfl⟩
      · exact .inr h
    have hno : ∀ u, own f ≠ .user d u := by
      intro u hu
      rcases hnot with ⟨h, -⟩ | ⟨i, h⟩ <;> cases hu.symm.trans h
    refine (hrest f ?_).2
    rcases planted_cases f with ⟨rfl, -⟩ | ⟨rfl, -⟩ | ⟨rfl, -⟩ | ⟨rfl, -⟩ | ⟨⟨h1, -⟩, h⟩
    · rcases hnot with ⟨-, h⟩ | ⟨i, h⟩
      · exact absurd h.symm hne
      · cases hrole.symm.trans h
    · rcases hnot with ⟨h, -⟩ | ⟨i, h⟩
      · cases hrole'.symm.trans h
      · cases hrole'.symm.trans h
        exact absurd rfl hne
    · obtain ⟨u, hu⟩ := huser 2000 (.inl rfl)
      exact absurd hu (hno u)
    · obtain ⟨u, hu⟩ := huser 2001 (.inr rfl)
      exact absurd hu (hno u)
    · rintro (h' | ⟨i, h'⟩ | ⟨u, h'⟩)
      · exact h1 h'
      · cases h.symm.trans h'
      · cases h.symm.trans h'
  obtain ⟨-, hpte'⟩ := hI.dir.congr hkeep (fun _ _ => Iff.rfl) (fun _ _ => Iff.rfl) hI.dir.self
  refine ⟨s', own', l', hfree, hH', hgone x ?_, by rw [hpte' 2 (by decide), hpte]⟩
  rcases hx with rfl | rfl
  · exact .inr (.inr ⟨1024, rfl⟩)
  · exact .inr (.inr ⟨1025, rfl⟩)

/-- The file that puts the entries into the caller's page table. -/
def smuggler : List UInt8 :=
  elf 2 ++ segment 0 0 0 4096 ++
    segment 116 (KERNBASE + 4096 * 1025) 8 (2 ^ 32 - (KERNBASE + 4096 * 1025)) ++ smuggled

/-- The file whose second segment is the kernel's first page, and whose third is cut off. -/
def intruder : List UInt8 :=
  elf 3 ++ segment 0 0 0 4096 ++
    segment 0 (KERNBASE + 4096 * 256) 4 (2 ^ 32 - (KERNBASE + 4096 * 256))

end Xv6.Exec
