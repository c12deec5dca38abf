import Xv6.Exec.Load
import Xv6.Fs.Locks

/-!
# What `exec` does

`exec` keeps the inode locked from the permission check to the last segment, so there is one file that
it reads.  Every exit gives back the lock, the reference and the transaction (`Opened.close`), and a
directory that has been begun is given up or takes the place of the old one (`exec_spec`).
-/

namespace Xv6.Exec

open List
open Fs (ISlot Pid Good Flags)
open Vm (Mem Layout Role Heap Dir Image Within Kept Replaced Rooted KERNBASE PTE_U)

/-! ## The file that a path names -/

/-- `namei` and `ilock`, inside of a transaction, lead to the inode `ip` and the state `s'`. -/
def Opens (sb : Fs.Superblock) (dev : Fs.Devsw) (p : Pid) (path : List UInt8) (s : Fs.State)
    (ip : ISlot) (s' : Fs.State) : Prop :=
  ∃ s₁, Fs.namei sb dev p path { s with tx := true } = .ok (some ip, s₁) ∧
    Fs.ilock ip s₁ = .ok ((), s')

/-- The loadable program headers of the file do not wrap. -/
def NoWrap (sb : Fs.Superblock) (dev : Fs.Devsw) (p : Pid) (junk path : List UInt8)
    (s : Fs.State) : Prop :=
  ∀ ip s' r, Opens sb dev p path s ip s' → Fs.readi sb dev ip 0 ELFSIZE s' = .ok (r, s') →
    Headers sb dev ip s' Proghdr.NoWrap (Elfhdr.decode (r.getD junk)).phnum
      (Elfhdr.decode (r.getD junk)).phoff

/-! ## The file system around a call -/

/-- Between calls: `P t` references to entry `t`, and the entries with `B` locked. -/
structure Calm (sb : Fs.Superblock) (P : ISlot → Nat) (B : ISlot → Bool) (s : Fs.State) : Prop where
  good : Good sb .any P [] s
  flags : Flags B s
  cwd : ∀ p c, (s.proc p).cwd = some c → 0 < P c

/-- The call has left no trace outside of memory and of the process. -/
structure Settled (sb : Fs.Superblock) (P : ISlot → Nat) (B : ISlot → Bool) (k k' : State) :
    Prop where
  calm : Calm sb P B k'.fs
  outstanding : k'.outstanding = k.outstanding
  wild : k'.wild = k.wild

/-- The call holds `ip` locked, inside of a transaction. -/
structure Opened (sb : Fs.Superblock) (P : ISlot → Nat) (B : ISlot → Bool) (k : State) (ip : ISlot)
    (k₁ : State) : Prop where
  good : Good sb .any P [ip] k₁.fs
  free : B ip = false
  flags : Flags (Function.update B ip true) k₁.fs
  valid : (k₁.fs.ic ip).valid = true
  cwd : ∀ p c, (k₁.fs.proc p).cwd = some c → 0 < P c
  outstanding : k₁.outstanding = k.outstanding + 1
  proc : k₁.proc = k.proc
  wild : k₁.wild = k.wild

section
variable {sb : Fs.Superblock} {dev : Fs.Devsw} {P : ISlot → Nat} {B : ISlot → Bool}
  {k k₁ k₂ : State} {ip : ISlot}

theorem Opened.mem_only (h : Opened sb P B k ip k₁) (hm : MemOnly k₁ k₂) : Opened sb P B k ip k₂ :=
  ⟨hm.fs ▸ h.good, h.free, hm.fs ▸ h.flags, hm.fs ▸ h.valid, hm.fs ▸ h.cwd,
    hm.outstanding.trans h.outstanding, hm.proc.trans h.proc, hm.wild.trans h.wild⟩

theorem Opened.steady (h : Opened sb P B k ip k₁) : Steady sb dev ip k₁.fs :=
  Fs.readi_same dev h.good (Fs.count_head_pos ip []) h.valid

/-- `iunlockput` and `end_op` undo what `begin_op`, `namei` and `ilock` did. -/
theorem Opened.close {α : Type} {rest : X α} {A : α → State → Prop} (h : Opened sb P B k ip k₁)
    (hrest : ∀ k', Settled sb P B k k' → k'.proc = k.proc → k'.mem = k₁.mem →
      Run (fun _ => True) A rest k') :
    Run (fun _ => True) A (onFs (Fs.iunlockput ip) >>= fun _ => endOp >>= fun _ => rest) k₁ := by
  have hput := (Fs.iunlockput_spec (q := False) (z := True) h.good).and (Fs.iunlockput_unlocks h.free h.flags)
  refine Run.bind (onFs_run hput) ?_
  rintro _ k₂ ⟨⟨⟨hgood, hframe, -⟩, hflags⟩, hk₂⟩
  refine Run.bind_eq endOp_eq (hrest _ ⟨⟨?_, ?_, ?_⟩, ?_, ?_⟩ ?_ ?_)
  · exact hgood.congr rfl rfl
  · exact hflags.congr fun _ => ⟨rfl, rfl⟩
  · intro p c hc
    refine h.cwd p c ?_
    rw [← hframe.proc]
    exact hc
  · rw [hk₂]
    show k₁.outstanding - 1 = k.outstanding
    rw [h.outstanding]
    rfl
  · rw [hk₂]
    exact h.wild
  · rw [hk₂]
    exact h.proc
  · rw [hk₂]

end

/-! ## The call -/

/-- How `exec` ends: -1 leaves the process as it is, 0 gives it the new directory with the arguments on
its stack. -/
structure Ended [Layout] (sb : Fs.Superblock) (P : ISlot → Nat) (B : ISlot → Bool)
    (own : Nat → Role) (argv : List (List UInt8)) (k : State) (r : Bool) (k' : State) : Prop where
  settled : Settled sb P B k k'
  failed : r = false → k'.proc = k.proc ∧ ∃ own' l', Kept k.mem own k'.mem own' l'
  loaded : r = true → ∃ own' l' ptrs,
    Replaced k.proc.pgdir k'.proc.pgdir k.mem own k'.mem own' l' ∧
    Image k'.mem own' l' k'.proc.pgdir k'.proc.sz ∧
    Stack k'.mem k'.proc.pgdir k'.proc.sz k'.proc.tf.esp argv ptrs ∧ k'.proc.gid = k.proc.gid

section
variable [Layout] {sb : Fs.Superblock} {dev : Fs.Devsw} {P : ISlot → Nat} {B : ISlot → Bool}
  {k k₁ : State} {ip : ISlot} {own own₁ : Nat → Role} {l l₁ : List Nat} {d sz : Nat}
  {argv : List (List UInt8)}

omit [Layout] in
theorem word_lt (bs : List UInt8) (o : Nat) : word bs o < 2 ^ 32 := by
  have h0 := (bs.getD o 0).toNat_lt
  have h1 := (bs.getD (o + 1) 0).toNat_lt
  have h2 := (bs.getD (o + 2) 0).toNat_lt
  have h3 := (bs.getD (o + 3) 0).toNat_lt
  unfold word
  omega

omit [Layout] in
theorem Stack.congr {s s' : Mem} {esp : Nat} {ptrs : List Nat} (h : Stack s d sz esp argv ptrs)
    (hsz : sz ≤ KERNBASE) (hpte : ∀ u < 2 ^ 20, s'.pte d u = s.pte d u)
    (hload : ∀ a < KERNBASE, s'.load d a = s.load d a) : Stack s' d sz esp argv ptrs := by
  have hlast := h.inside (esp, 4 * (argv.length + 4)) (mem_append_right _ (mem_singleton.2 rfl))
  have hend : esp + 4 * (argv.length + 4) ≤ sz := hlast.2
  -- everything that is found on the stack lies below `sz`
  have hkeep : ∀ {a : Nat} {bs : List UInt8}, a + bs.length ≤ sz → Holds s d a bs →
      Holds s' d a bs := fun hle hh => hh.congr fun b _ hb => hload b (by omega)
  have hword : ∀ {a w : Nat}, a + 4 ≤ sz → Holds s d a (bytes w) → Holds s' d a (bytes w) :=
    fun hle => hkeep hle
  refine ⟨h.pages, h.count, h.aligned, hword (by omega) h.pc, hword (by omega) h.argc,
    hword (by omega) h.array, fun i hi => ?_, hword (by omega) h.null, h.inside, h.apart, ?_⟩
  · obtain ⟨p, arg, hp, harg, hal, hw, hs⟩ := h.pointers i hi
    refine ⟨p, arg, hp, harg, hal, hword (by omega) hw, hkeep ?_ hs⟩
    have hmem : (p, arg.length + 1) ∈ regions esp argv ptrs := by
      refine mem_append_left _ (mem_map.2 ⟨(p, arg), ?_, rfl⟩)
      refine mem_iff_getElem?.2 ⟨i, ?_⟩
      rw [getElem?_zip_eq_some]
      exact ⟨hp, harg⟩
    rw [length_append, length_singleton]
    exact (h.inside _ hmem).2
  · have hpages := h.pages
    rw [hpte _ (by dsimp only [KERNBASE] at hsz; omega)]
    exact h.guard

/-- `goto bad` before there is a directory. -/
theorem bad_file (h : Opened sb P B k ip k₁) (hk : ∃ own' l', Kept k.mem own k₁.mem own' l') :
    Run (fun _ => True) (Ended sb P B own argv k) (bad none (some ip)) k₁ := by
  apply h.close
  intro k' hs hp hm
  refine Run.pure ⟨hs, fun _ => ⟨hp, ?_⟩, nofun⟩
  rw [hm]
  exact hk

/-- `goto bad` with the directory and the file. -/
theorem bad_both (h : Opened sb P B k ip k₁) (hw : Within d k.mem own k₁.mem own₁ l₁)
    (hd : own d = .free) (hR : Rooted own) :
    Run (fun _ => True) (Ended sb P B own argv k) (bad (some d) (some ip)) k₁ := by
  obtain ⟨s', own', l', hrun, hkept⟩ := hw.given_up hd hR
  refine Run.bind_eq (onMem_ok hrun) ?_
  exact bad_file (h.mem_only (.mem k₁ s')) ⟨own', l', hkept⟩

/-- `goto bad` after the file has been closed. -/
theorem bad_directory (h : Settled sb P B k k₁) (hp : k₁.proc = k.proc)
    (hw : Within d k.mem own k₁.mem own₁ l₁) (hd : own d = .free) (hR : Rooted own) :
    Run (fun _ => True) (Ended sb P B own argv k) (bad (some d) none) k₁ := by
  obtain ⟨s', own', l', hrun, hkept⟩ := hw.given_up hd hR
  exact Run.bind_eq (onMem_ok hrun)
    (Run.pure ⟨⟨h.calm, h.outstanding, h.wild⟩, fun _ => ⟨hp, own', l', hkept⟩, nofun⟩)

/-- The new directory takes over. -/
theorem commit_spec (path : List UInt8) (st : Fs.Dinode) (entry : Nat) {sp : Nat} {ptrs : List Nat}
    (h : Settled sb P B k k₁) (hp : k₁.proc = k.proc) (hw : Within d k.mem own k₁.mem own₁ l₁)
    (hd : own d = .free) (hR : Rooted own) (hold : Dir k.mem own k.proc.pgdir)
    (hI : Image k₁.mem own₁ l₁ d sz) (hS : Stack k₁.mem d sz sp argv ptrs) (hsz : sz ≤ KERNBASE) :
    Run (fun _ => True) (Ended sb P B own argv k)
      (commit path st d sz entry sp >>= fun _ => pure true) k₁ := by
  obtain ⟨s', own', l', hrun, hrep, hI', hpte, hload⟩ := hw.replaced hd hR hold hI
  have hrun' : Vm.freevm k₁.proc.pgdir k₁.mem = .ok ((), s') := by
    rw [hp]
    exact hrun
  have hcommit : commit path st d sz entry sp k₁ = .ok ((), { k₁ with
      mem := s'
      proc := { k₁.proc with
        name := (lastElem path).take (NAMESIZE - 1)
        pgdir := d
        sz := sz
        tf := { eip := entry, esp := sp }
        uid := if st.mode.getLsbD 9 then st.uid.toNat else k₁.proc.uid } }) :=
    onMem_ok (k := { k₁ with proc := { k₁.proc with
      name := (lastElem path).take (NAMESIZE - 1)
      pgdir := d
      sz := sz
      tf := { eip := entry, esp := sp }
      uid := if st.mode.getLsbD 9 then st.uid.toNat else k₁.proc.uid } }) hrun'
  refine Run.bind_eq hcommit (Run.pure ?_)
  · refine ⟨⟨h.calm, h.outstanding, h.wild⟩, nofun, fun _ => ⟨own', l', ptrs, hrep, hI', ?_, ?_⟩⟩
    · exact hS.congr hsz hpte hload
    · show k₁.proc.gid = k.proc.gid
      rw [hp]

/-- From a state in which the tables and the file system are in order, whatever `kalloc` does. -/
theorem exec_spec (p : Pid) (junk path : List UInt8) (argv : List (List UInt8))
    (hfs : Calm sb P B k.fs) (hH : Heap k.mem own l) (hR : Rooted own)
    (hold : Dir k.mem own k.proc.pgdir) (hnw : NoWrap sb dev p junk path k.fs) :
    Run (fun _ => True) (Ended sb P B own argv k) (exec sb dev p junk path argv) k := by
  unfold exec
  refine Run.bind_eq beginOp_eq ?_
  have hgood₀ : Good sb .any P [] { k.fs with tx := true } := hfs.good.congr rfl rfl
  have hflags₀ : Flags B { k.fs with tx := true } := hfs.flags.congr fun _ => ⟨rfl, rfl⟩
  have hnamei : Run (Fs.Fault False True) _ (Fs.namei sb dev p path) _ :=
    ((Fs.namei_spec p path hgood₀ False.elim (hfs.cwd p)).and (Fs.namei_flags hflags₀ p path)).self
  refine Run.bind (onFs_run (k := { k with
    fs := { k.fs with tx := true }, outstanding := k.outstanding + 1 }) hnamei) ?_
  rintro r k₁ ⟨⟨⟨⟨hframe, -, hnone, hsome⟩, hflags⟩, hrun⟩, hk₁⟩
  cases r with
  | none =>
    refine Run.bind_eq endOp_eq (Run.pure ⟨⟨⟨?_, ?_, ?_⟩, ?_, ?_⟩, fun _ => ⟨?_, own, l, ?_⟩, nofun⟩)
    · exact (hnone rfl).congr rfl rfl
    · exact hflags.congr fun _ => ⟨rfl, rfl⟩
    · intro q c hc
      refine hfs.cwd q c ?_
      have : (k₁.fs.proc q).cwd = some c := hc
      rwa [hframe.proc] at this
    · rw [hk₁]
      rfl
    · rw [hk₁]
    · rw [hk₁]
    · rw [hk₁]
      exact ⟨hH, fun _ _ => rfl, fun _ _ _ => rfl, fun _ hf => .inl hf⟩
  | some ip =>
    have hgood := hsome ip rfl
    have hip : 0 < P ip + [ip].count ip := Fs.count_head_pos ip []
    have hlock := ((Fs.ilock_spec (q := False) (z := True) hgood hip False.elim).and
      (Fs.ilock_flags hflags ip)).self
    refine Run.bind (onFs_run hlock) ?_
    rintro _ k₂ ⟨⟨⟨⟨hgood₂, hframe₂, -, hvalid⟩, hfree, hflags₂⟩, hrun₂⟩, hk₂⟩
    have hmem₂ : k₂.mem = k.mem := by
      rw [hk₂, hk₁]
    have hproc₂ : k₂.proc = k.proc := by
      rw [hk₂, hk₁]
    have hopen : Opened sb P B k ip k₂ := by
      refine ⟨hgood₂, hfree, hflags₂, hvalid, fun q c hc => hfs.cwd q c ?_, ?_, hproc₂, ?_⟩
      · rw [hframe₂.proc, hframe.proc] at hc
        exact hc
      · rw [hk₂, hk₁]
      · rw [hk₂, hk₁]
    have hopens : Opens sb dev p path k.fs ip k₂.fs := ⟨k₁.fs, hrun, hrun₂⟩
    have hH₂ : Heap k₂.mem own l := hmem₂ ▸ hH
    have hkept₂ : ∃ own' l', Kept k.mem own k₂.mem own' l' := by
      rw [hmem₂]
      exact ⟨own, l, hH, fun _ _ => rfl, fun _ _ _ => rfl, fun _ hf => .inl hf⟩
    refine Run.get_bind ?_
    dsimp only
    refine Run.ite (fun _ => bad_file hopen hkept₂) fun _ => ?_
    have hst : Steady sb dev ip k₂.fs := hopen.steady
    obtain ⟨r, hr⟩ := hst 0 ELFSIZE
    refine Run.bind_eq (onFs_ok hr) ?_
    refine Run.ite (fun _ => bad_file hopen hkept₂) fun _ => ?_
    have hhd := hnw ip k₂.fs r hopens hr
    generalize (k₂.fs.ic ip).copy = st
    have hoff : (Elfhdr.decode (r.getD junk)).phoff < 2 ^ 32 := word_lt _ _
    generalize Elfhdr.decode (r.getD junk) = elf at hhd hoff
    refine Run.ite (fun _ => bad_file hopen hkept₂) fun _ => ?_
    rcases Vm.setupkvm_spec hH₂ hR with ⟨-, hk⟩ | ⟨d, c, s', own', l', -, hk, -, hb⟩ |
      ⟨d, s', own', l', hk, hb, hkern⟩
    · refine Run.bind_eq (onMem_ok hk) (bad_file (hopen.mem_only (.mem k₂ _)) ⟨own, l, ?_⟩)
      rw [hmem₂] at hH₂ ⊢
      exact Kept.pass hH₂
    · obtain ⟨own₂, hlost⟩ := hb.lost
      refine Run.bind_eq (onMem_ok hk) (bad_file (hopen.mem_only (.mem k₂ _)) ⟨own₂, l', ?_⟩)
      rw [hmem₂] at hlost
      exact hlost
    · refine Run.bind_eq (onMem_ok hk) ?_
      have hI := hb.image hkern
      have hin : Within d k.mem own s' own' l' := by
        have := hb.loc.within
        rwa [hmem₂] at this
      refine Run.bind (loadLoop_spec (k := { k₂ with mem := s' }) elf.phnum hoff hst hhd hI
        (by decide)) ?_
      rintro x k₃ ⟨hm₃, own₃, l₃, hin₃, hx⟩
      have hopen₃ := (hopen.mem_only (.mem k₂ s')).mem_only hm₃
      have hall₃ := hin.trans hin₃
      cases x with
      | none => exact bad_both hopen₃ hall₃ hb.was hR
      | some sz =>
        obtain ⟨hsz, hI₃⟩ := hx sz rfl
        refine hopen₃.close fun k₄ hs₄ hp₄ hm₄ => ?_
        rw [← hm₄] at hI₃ hall₃
        have hstack := setupStack_spec hI₃ hsz argv
        refine Run.bind (onMem_run (k := k₄) hstack) ?_
        rintro y k₅ ⟨⟨own₅, l₅, hin₅, hy⟩, hk₅⟩
        have hs₅ : Settled sb P B k k₅ := by
          rw [hk₅]
          exact ⟨hs₄.calm, hs₄.outstanding, hs₄.wild⟩
        have hp₅ : k₅.proc = k.proc := by
          rw [hk₅]
          exact hp₄
        have hall₅ := hall₃.trans hin₅
        cases y with
        | none => exact bad_directory hs₅ hp₅ hall₅ hb.was hR
        | some y =>
          obtain ⟨sz', sp⟩ := y
          obtain ⟨hsz₅, hI₅, ptrs, hS⟩ := hy _ rfl
          exact commit_spec path st elf.entry hs₅ hp₅ hall₅ hb.was hR hold hI₅ hS hsz₅

end

end Xv6.Exec
