import Xv6.Fs.Contents

/-!
# Directories and paths

On a disk without holes the loops over a directory only read, so `dirlookup`, `dirlink`
and `isdirempty` are a search among the entries of the disk (`search`).  `namex` takes
and drops references; when every inode without links is held, it leaves the disk alone.
-/

namespace Xv6.Fs

open List

variable {sb : Superblock} {dev : Devsw} {m : Mode} {q z : Prop} {P : ISlot → Nat}
  {T : List ISlot} {s s' : State} {t : ISlot} {D D' : Disk}

/-! ## Searching -/

/-- The first entry from `k` on that has `test`. -/
def Disk.search (D : Disk) (sb : Superblock) (i : Nat) (test : Dirent → Bool) (k : Nat) :
    Option Nat :=
  ((List.range (D.entries i)).drop k).find? fun j => test (D.dirent sb i j)

variable {i : Nat}

theorem search_some {k j : Nat} {test : Dirent → Bool} (h : D.search sb i test k = some j) :
    j < D.entries i ∧ test (D.dirent sb i j) = true := by
  unfold Disk.search at h
  have ht := find?_some h
  exact ⟨mem_range.mp (mem_of_mem_drop (mem_of_find?_eq_some h)), ht⟩

theorem search_none {k j : Nat} {test : Dirent → Bool} (h : D.search sb i test k = none)
    (hk : k ≤ j) (hj : j < D.entries i) : test (D.dirent sb i j) = false := by
  have hm : j ∈ (List.range (D.entries i)).drop k := by
    refine mem_drop_iff_getElem.mpr ⟨j - k, ?_, ?_⟩
    · simp only [length_range]; omega
    · simp only [getElem_range]; omega
  simpa using find?_eq_none.mp h j hm

/-- The entry that `dirlookup` finds for `name`. -/
def Disk.lookup (D : Disk) (sb : Superblock) (i : Nat) (name : List UInt8) : Option Nat :=
  D.search sb i (fun de => de.inum ≠ 0 ∧ namecmp name de.name) 0

/-- The entry that `dirlink` writes: the first empty one, or a new one at the end. -/
def Disk.freeEntry (D : Disk) (sb : Superblock) (i : Nat) : Nat :=
  (D.search sb i (fun de => de.inum = 0) 0).getD (D.entries i)

theorem freeEntry_le (sb : Superblock) (D : Disk) (i : Nat) : D.freeEntry sb i ≤ D.entries i := by
  unfold Disk.freeEntry
  cases h : D.search sb i (fun de => de.inum = 0) 0 with
  | none => exact Nat.le_refl _
  | some j => exact (search_some h).1.le

theorem freeEntry_inum (h : D.freeEntry sb i < D.entries i) :
    (D.dirent sb i (D.freeEntry sb i)).inum = 0 := by
  unfold Disk.freeEntry at h ⊢
  cases hs : D.search sb i (fun de => de.inum = 0) 0 with
  | none =>
    rw [hs] at h
    exact absurd h (Nat.lt_irrefl _)
  | some j => simpa using (search_some hs).2

/-- Every entry is in use, and there can be no more. -/
def Disk.Full (D : Disk) (sb : Superblock) (i : Nat) : Prop :=
  (D.ino i).size = MAXFILE * BSIZE ∧ ∀ k < D.entries i, (D.dirent sb i k).inum ≠ 0

theorem freeEntry_eq_entries (h : ∀ k < D.entries i, (D.dirent sb i k).inum ≠ 0) :
    D.freeEntry sb i = D.entries i := by
  have hle := freeEntry_le sb D i
  by_contra hne
  have hlt : D.freeEntry sb i < D.entries i := by omega
  exact h _ hlt (freeEntry_inum hlt)

theorem entries_freeEntry {k : Nat} (h : D.freeEntry sb i = D.entries i)
    (hk : k < D.entries i) : (D.dirent sb i k).inum ≠ 0 := by
  intro h0
  unfold Disk.freeEntry at h
  cases hs : D.search sb i (fun de => de.inum = 0) 0 with
  | none =>
    have := search_none hs (Nat.zero_le k) hk
    simp [h0] at this
  | some j =>
    rw [hs] at h
    have := (search_some hs).1
    simp only [Option.getD_some] at h
    omega

/-- Some directory is full. -/
def Disk.Jammed (D : Disk) (sb : Superblock) : Prop :=
  ∃ i, D.Live sb i ∧ (D.ino i).type = T_DIR ∧ D.Full sb i

theorem SameDir.lookup (h : SameDir sb D D' i) (name : List UInt8) :
    D'.lookup sb i name = D.lookup sb i name := by
  unfold Disk.lookup Disk.search
  simp only [h.entries, h.dirent]

theorem SameDir.full (h : SameDir sb D D' i) : D'.Full sb i ↔ D.Full sb i := by
  unfold Disk.Full
  simp only [h.size, h.entries, h.dirent]

theorem SameDir.jammed (h : SameDir sb D D' i) (hl : D'.Live sb i)
    (ht : (D'.ino i).type = T_DIR) (hf : D'.Full sb i) : D.Jammed sb :=
  ⟨i, h.live.1 hl, h.type.symm.trans ht, h.full.1 hf⟩

/-- A cached directory: it has whole entries, and every block below its size is there. -/
structure IsDir (sb : Superblock) (t : ISlot) (s : State) : Prop where
  live : (s.over t).Live sb (s.ic t).inum
  type : (s.ic t).copy.type = T_DIR
  size : (s.ic t).copy.size % DESIZE = 0
  nohole : ∀ n, n * BSIZE < (s.ic t).copy.size → (s.over t).addr sb (s.ic t).inum n ≠ 0

namespace IsDir

variable (h : IsDir sb t s)
include h

theorem size_eq : (s.ic t).copy.size = DESIZE * (s.over t).entries (s.ic t).inum := by
  rw [Disk.entries, over_size]
  have := h.size
  dsimp only [DESIZE] at *
  omega

theorem size_le : (s.ic t).copy.size ≤ MAXFILE * BSIZE := by
  by_contra hlt
  refine h.nohole MAXFILE (by omega) ?_
  rw [Disk.addr, Disk.place, dif_neg (by decide), dif_neg (by decide)]
  rfl

theorem not_dev : (s.ic t).copy.type ≠ T_DEV := by
  rw [h.type]
  decide

theorem readi_entry {k : Nat} (hk : k < (s.over t).entries (s.ic t).inum) :
    readi sb dev t (DESIZE * k) DESIZE s =
      .ok (some ((s.over t).bytes sb (s.ic t).inum (DESIZE * k) DESIZE), s) := by
  have hsize := h.size_eq
  have hmax := h.size_le
  have hr : ¬ Rejected (s.ic t).copy (DESIZE * k) DESIZE := by
    unfold Rejected
    dsimp only [MAXFILE, NDIRECT, NINDIRECT, BSIZE, DESIZE] at *
    omega
  have hclip : clip (s.ic t).copy.size (DESIZE * k) DESIZE = DESIZE := by
    rw [clip, if_neg]
    dsimp only [DESIZE] at *
    omega
  have hm : (s.over t).Mapped sb (s.ic t).inum (DESIZE * k) DESIZE := by
    intro n _ _ hn
    refine h.nohole n ?_
    dsimp only [DESIZE] at *
    omega
  rw [readi_eq h.live h.not_dev hr (by rwa [hclip]), hclip]

theorem scan_eq (err : Panic) (test : Dirent → Bool) :
    ∀ fuel k, (s.over t).entries (s.ic t).inum - k ≤ fuel →
      scan sb dev t err test fuel (DESIZE * k) s =
        .ok (((s.over t).search sb (s.ic t).inum test k).map fun j =>
          (DESIZE * j, (s.over t).dirent sb (s.ic t).inum j), s) := by
  have hsize := h.size_eq
  have hend : ∀ k, (s.over t).entries (s.ic t).inum ≤ k →
      (s.over t).search sb (s.ic t).inum test k = none := by
    intro k hk
    rw [Disk.search, drop_eq_nil_of_le (by simpa using hk)]
    rfl
  intro fuel
  induction fuel with
  | zero =>
    intro k hk
    rw [hend k (by omega)]
    rfl
  | succ fuel ih =>
    intro k hk
    unfold scan
    change (if DESIZE * k < (s.ic t).copy.size then _ else _ : M (Option (Nat × Dirent))) s = _
    by_cases hlt : k < (s.over t).entries (s.ic t).inum
    · rw [if_pos (by rw [hsize]; dsimp only [DESIZE]; omega)]
      change (readi sb dev t (DESIZE * k) DESIZE s >>= fun x => _) = _
      rw [h.readi_entry hlt]
      have hlen : ((s.over t).bytes sb (s.ic t).inum (DESIZE * k) DESIZE).length = DESIZE := by
        simp [Disk.bytes]
      have hstep : (s.over t).search sb (s.ic t).inum test k =
          if test ((s.over t).dirent sb (s.ic t).inum k) then some k
          else (s.over t).search sb (s.ic t).inum test (k + 1) := by
        unfold Disk.search
        rw [drop_eq_getElem_cons (by simpa using hlt), find?_cons]
        simp only [getElem_range]
        split <;> simp_all
      change (if ((s.over t).bytes sb (s.ic t).inum (DESIZE * k) DESIZE).length ≠ DESIZE
        then throw err else if test ((s.over t).dirent sb (s.ic t).inum k)
        then pure (some (DESIZE * k, (s.over t).dirent sb (s.ic t).inum k))
        else scan sb dev t err test fuel (DESIZE * k + DESIZE) : M (Option (Nat × Dirent))) s = _
      rw [if_neg (not_not.mpr hlen), hstep]
      by_cases htest : test ((s.over t).dirent sb (s.ic t).inum k)
      · rw [if_pos htest, if_pos htest]
        rfl
      · rw [if_neg htest, if_neg htest]
        exact ih (k + 1) (by omega)
    · rw [if_neg (by rw [hsize]; dsimp only [DESIZE]; omega), hend k (by omega)]
      rfl

theorem scan_passes (dev : Devsw) (err : Panic) (test : Dirent → Bool) (k : Nat) :
    scan sb dev t err test (passes (s.ic t).copy.size) (DESIZE * k) s =
      .ok (((s.over t).search sb (s.ic t).inum test k).map fun j =>
        (DESIZE * j, (s.over t).dirent sb (s.ic t).inum j), s) := by
  refine h.scan_eq err test _ k ?_
  rw [passes, h.size_eq]
  dsimp only [DESIZE]
  omega

/-- The entry that `dirlink` writes comes right after the last one if none is empty. -/
theorem freeEntry_off :
    ((((s.over t).search sb (s.ic t).inum (fun de => de.inum = 0) 0).map fun j =>
        (DESIZE * j, (s.over t).dirent sb (s.ic t).inum j)).map Prod.fst).getD
        (((s.ic t).copy.size + (DESIZE - 1)) / DESIZE * DESIZE) =
      DESIZE * (s.over t).freeEntry sb (s.ic t).inum := by
  unfold Disk.freeEntry
  cases (s.over t).search sb (s.ic t).inum (fun de => de.inum = 0) 0 with
  | none =>
    change ((s.ic t).copy.size + (DESIZE - 1)) / DESIZE * DESIZE = DESIZE * (s.over t).entries _
    have := h.size_eq
    dsimp only [DESIZE] at *
    omega
  | some j => rfl

/-- The entry that `dirlink` would write lies beyond the largest size. -/
theorem full_iff : MAXFILE * BSIZE < DESIZE * (s.over t).freeEntry sb (s.ic t).inum + DESIZE ↔
    (s.over t).Full sb (s.ic t).inum := by
  have hsize := h.size_eq
  have hmax := h.size_le
  have hle := freeEntry_le sb (s.over t) (s.ic t).inum
  unfold Disk.Full
  rw [over_size]
  constructor
  · intro hlt
    have heq : (s.over t).freeEntry sb (s.ic t).inum = (s.over t).entries (s.ic t).inum := by
      dsimp only [MAXFILE, NDIRECT, NINDIRECT, BSIZE, DESIZE] at *
      omega
    refine ⟨?_, fun k hk => entries_freeEntry heq hk⟩
    rw [heq] at hlt
    dsimp only [MAXFILE, NDIRECT, NINDIRECT, BSIZE, DESIZE] at *
    omega
  · rintro ⟨hfull, hused⟩
    rw [freeEntry_eq_entries hused, ← hsize, hfull]
    dsimp only [DESIZE]
    omega

end IsDir

section
variable (h : Good sb m P T s) (ht : 0 < P t + T.count t) (hv : (s.ic t).valid = true)
  (hdir : (s.disk.ino (s.ic t).inum).type = T_DIR)
include h ht hv hdir

theorem Good.isDir : IsDir sb t s := by
  have hc := h.copy ht hv
  have hl := h.live ht hv
  refine ⟨by rwa [over_eq hc], hc ▸ hdir, hc ▸ h.disk.dirsize _ hl hdir, fun n hn => ?_⟩
  rw [over_eq hc]
  exact h.disk.nohole _ hl n (hc ▸ hn)

theorem scan_passes (dev : Devsw) (err : Panic) (test : Dirent → Bool) (k : Nat) :
    scan sb dev t err test (passes (s.ic t).copy.size) (DESIZE * k) s =
      .ok ((s.disk.search sb (s.ic t).inum test k).map fun j =>
        (DESIZE * j, s.disk.dirent sb (s.ic t).inum j), s) := by
  have hscan := (h.isDir ht hv hdir).scan_passes dev err test k
  rwa [over_eq (h.copy ht hv)] at hscan

theorem isdirempty_eq : isdirempty sb dev t s =
    .ok ((s.disk.search sb (s.ic t).inum (fun de => de.inum ≠ 0) 2).isNone, s) := by
  change (scan sb dev t _ _ (passes (s.ic t).copy.size) (2 * DESIZE) s >>= fun x => _) = _
  rw [Nat.mul_comm 2, scan_passes h ht hv hdir]
  cases s.disk.search sb (s.ic t).inum (fun de => de.inum ≠ 0) 2 <;> rfl

end

/-! ## `dirlookup` and `dirlink` -/

section
variable (h : Good sb m P T s) (ht : 0 < P t + T.count t) (hv : (s.ic t).valid = true)
include h ht hv

theorem dirlookup_spec (name : List UInt8) :
    Run (Fault q z) (fun r s' => (s.disk.ino (s.ic t).inum).type = T_DIR ∧ s'.disk = s.disk ∧
        Frame P T s s' ∧
        ((r = none ∧ s' = s ∧ s.disk.lookup sb (s.ic t).inum name = none) ∨
          ∃ u j, r = some (u, DESIZE * j) ∧ s.disk.lookup sb (s.ic t).inum name = some j ∧
            (s'.ic u).inum = (s.disk.dirent sb (s.ic t).inum j).inum ∧
            Good sb m P (u :: T) s' ∧ ¬ s'.Last u))
      (dirlookup sb dev t name) s := by
  unfold dirlookup
  refine Run.get_bind (Run.ite (fun _ => Run.throw (Fault.of (by decide))) fun hd => ?_)
  have hdir : (s.disk.ino (s.ic t).inum).type = T_DIR := by
    rw [← h.copy ht hv]
    exact not_not.mp hd
  have hscan := scan_passes h ht hv hdir dev .dirlinkRead
    (fun de => de.inum ≠ 0 ∧ namecmp name de.name) 0
  refine Run.bind_eq hscan ?_
  cases hl : s.disk.lookup sb (s.ic t).inum name with
  | none =>
    unfold Disk.lookup at hl
    rw [hl]
    exact Run.pure ⟨hdir, rfl, .refl, .inl ⟨rfl, rfl, rfl⟩⟩
  | some j =>
    unfold Disk.lookup at hl
    rw [hl]
    obtain ⟨hj, htest⟩ := search_some hl
    simp only [ne_eq, decide_eq_true_eq] at htest
    have hlive := h.live ht hv
    refine Run.bind (iget_spec h (h.disk.dirents _ hlive hdir j hj)
      fun hs => (h.sound hs).entry _ hlive hdir j hj htest.1) ?_
    rintro u s' ⟨hg, hf, hi, hsd, hlast⟩
    exact Run.pure ⟨hdir, hsd, hf, .inr ⟨u, j, rfl, rfl, hi, hg, hlast⟩⟩

/-- A name that is there is left alone; otherwise the entry is written, if there is room. -/
theorem dirlink_spec (name : List UInt8) {inum : Nat} (hi : inum < sb.ninodes)
    (hl : m.sound → inum % 65536 ≠ 0 → s.disk.Live sb (inum % 65536))
    (hfull : (s.disk.ino (s.ic t).inum).type = T_DIR →
      s.disk.lookup sb (s.ic t).inum name = none → s.disk.Full sb (s.ic t).inum → z) :
    Run (Fault q z) (fun r s' => (s.disk.ino (s.ic t).inum).type = T_DIR ∧
        Good sb m P T s' ∧ Frame P T s s' ∧
        ((r = false ∧ s'.disk = s.disk ∧ s.disk.lookup sb (s.ic t).inum name ≠ none) ∨
          (r = true ∧ s.disk.lookup sb (s.ic t).inum name = none ∧
            Wrote sb (s.ic t).inum (DESIZE * s.disk.freeEntry sb (s.ic t).inum)
              (Dirent.encode name inum) s.disk s'.disk)))
      (dirlink sb dev t name inum) s := by
  unfold dirlink
  refine Run.bind (dirlookup_spec h ht hv name) ?_
  rintro r s₁ ⟨hdir, hsd, hf, hr⟩
  rcases hr with ⟨rfl, rfl, hnone⟩ | ⟨u, j, rfl, hsome, -, hg, hlast⟩
  · have hscan := scan_passes h ht hv hdir dev .dirlinkRead (fun de => de.inum = 0) 0
    have hoff := (h.isDir ht hv hdir).freeEntry_off
    rw [over_eq (h.copy ht hv)] at hoff
    refine Run.get_bind (Run.bind_eq hscan ?_)
    rw [hoff]
    refine Run.bind (writei_good h ht hv fun _ => ?_) ?_
    · rw [encode_length, decode_encode]
      refine ⟨Nat.mul_mod_right .., rfl, ?_, hl⟩
      exact Nat.lt_of_le_of_lt (Nat.mod_le ..) hi
    · rintro r s' ⟨hg, hf', hw⟩
      rw [encode_length] at hw
      rcases hw with ⟨-, ⟨rfl, hbig⟩ | hr'⟩ | ⟨rfl, -, hw, -⟩
      · refine Run.throw ⟨⟨by decide, fun _ => by decide⟩, by decide, fun _ => hfull hdir hnone ?_⟩
        have hsize := (h.isDir ht hv hdir).size_eq
        have hle := Nat.mul_le_mul_left DESIZE (freeEntry_le sb s₁.disk (s₁.ic t).inum)
        have hiff := (h.isDir ht hv hdir).full_iff
        rw [over_eq (h.copy ht hv)] at hsize hiff
        exact hiff.1 (hbig (hsize ▸ hle))
      · rw [h.copy ht hv, hdir] at hr'
        cases hr'
      · exact Run.pure ⟨hdir, hg, hf', .inr ⟨rfl, hnone, hw⟩⟩
  · refine Run.bind (iput_spec hg) ?_
    rintro _ s' ⟨hg', hf', hput⟩
    exact Run.pure ⟨hdir, hg', hf.trans hf', .inl ⟨rfl, (hput.kept hlast).trans hsd,
      by rw [hsome]; exact Option.some_ne_none j⟩⟩

end

/-! ## Paths -/

/-- A reference of the running call. -/
theorem count_head_pos (t : ISlot) (T : List ISlot) : 0 < P t + (t :: T).count t := by
  rw [count_cons_self]
  omega

theorem count_tail_pos {t : ISlot} (u : ISlot) (h : 0 < P t + T.count t) :
    0 < P t + (u :: T).count t := by
  have := count_le_count_cons (a := t) (b := u) (l := T)
  omega

theorem Put.disk_eq (h : Put sb t s s') (hg : Good sb m P (t :: T) s) (hl : m.linked) :
    s'.disk = s.disk :=
  h.kept (hg.not_last hl)

/-- The walk from inode `i` along the rest of a path on a disk that does not change. -/
def Disk.walk (D : Disk) (sb : Superblock) (parent : Bool) :
    Nat → List UInt8 → List (List UInt8) → Option (Nat × List UInt8)
  | i, last, [] => if parent then none else some (i, last)
  | i, _, name :: rest =>
    if (D.ino i).type ≠ T_DIR then none
    else if parent = true ∧ rest = [] then some (i, name)
    else (D.lookup sb i name).bind fun j => walk D sb parent (D.dirent sb i j).inum name rest

theorem Disk.walk_congr (h : ∀ j, SameDir sb D D' j) (parent : Bool) :
    ∀ (l : List (List UInt8)) (i : Nat) (last : List UInt8),
      D'.walk sb parent i last l = D.walk sb parent i last l := by
  intro l
  induction l with
  | nil => intro i last; rfl
  | cons name rest ih =>
    intro i last
    unfold Disk.walk
    simp only [(h i).type, (h i).lookup, (h i).dirent, ih]

/-- What a path means to process `p`. -/
def State.resolve (s : State) (sb : Superblock) (p : Pid) (path : List UInt8) (parent : Bool) :
    Option (Nat × List UInt8) :=
  let path := path.takeWhile (· ≠ 0)
  let walk i := s.disk.walk sb parent i [] (elems path.length path)
  if path.head? = some slash then walk ROOTINO
  else (s.proc p).cwd.bind fun c => walk (s.ic c).inum

/-- What a walk along a path leaves; `w` is where the path leads. -/
structure Walked (sb : Superblock) (m : Mode) (P : ISlot → Nat) (T : List ISlot) (parent : Bool)
    (w : Option (Nat × List UInt8)) (s : State) (r : Option (ISlot × List UInt8)) (s' : State) :
    Prop where
  frame : Frame P T s s'
  disk : m.linked → s'.disk = s.disk
  lost : r = none → Good sb m P T s'
  found : ∀ u name, r = some (u, name) → Good sb m P (u :: T) s'
  dir : ∀ u name, r = some (u, name) → parent = true →
    (s'.ic u).valid = true ∧ (s'.disk.ino (s'.ic u).inum).type = T_DIR
  path : m.linked → r.map (fun x => ((s'.ic x.1).inum, x.2)) = w

variable {parent : Bool}

theorem Walked.step {w : Option (Nat × List UInt8)} {r : Option (ISlot × List UInt8)} {s₁ : State}
    (h : Walked sb m P T parent w s₁ r s') (hf : Frame P T s s₁)
    (hd : m.linked → s₁.disk = s.disk) : Walked sb m P T parent w s r s' :=
  { h with
    frame := hf.trans h.frame
    disk := fun hl => (h.disk hl).trans (hd hl) }

theorem Walked.of_none (h : Good sb m P T s') (hf : Frame P T s s')
    (hd : m.linked → s'.disk = s.disk) : Walked sb m P T parent none s none s' :=
  ⟨hf, hd, fun _ => h, fun _ _ => (nomatch ·), fun _ _ => (nomatch ·), fun _ => rfl⟩

/-- `iput` can only free an inode. -/
theorem Put.within (hp : Put sb t s s') : Within sb s.disk s'.disk := by
  intro j hj
  by_cases hl : s.Last t
  · have hf := hp.freed hl
    refine SameDir.freed hf ?_
    rintro rfl
    exact hj.2 hf.self
  · rw [hp.kept hl]
    exact .refl

/-- The walk gives back what it holds and returns nothing. -/
theorem walk_put {ip : ISlot} (h : Good sb m P (ip :: T) s) :
    Run (Fault q z) (fun r s' => Walked sb m P T parent none s r s' ∧ Within sb s.disk s'.disk)
      (do iunlockput ip; pure none) s := by
  refine Run.bind (iunlockput_spec h) ?_
  rintro _ s' ⟨hg, hf, hp⟩
  exact Run.pure ⟨.of_none hg hf fun hl => hp.disk_eq h hl, hp.within⟩

theorem namexLoop_spec (parent : Bool) (hq : q → m.sound) :
    ∀ (l : List (List UInt8)) (last : List UInt8) (ip : ISlot) (s : State),
      Good sb m P (ip :: T) s →
      Run (Fault q z) (fun r s' => Walked sb m P T parent
          (s.disk.walk sb parent (s.ic ip).inum last l) s r s' ∧ Within sb s.disk s'.disk)
        (namexLoop sb dev parent ip last l) s := by
  intro l
  induction l with
  | nil =>
    intro last ip s h
    unfold namexLoop Disk.walk
    refine Run.ite (fun hp => ?_) fun hp => ?_
    · rw [if_pos hp]
      refine Run.bind (iput_spec h) ?_
      rintro _ s' ⟨hg, hf, hput⟩
      exact Run.pure ⟨.of_none hg hf fun hl => hput.disk_eq h hl, hput.within⟩
    · rw [if_neg hp]
      refine Run.pure ⟨⟨.refl, fun _ => rfl, (nomatch ·), fun u n he => ?_,
        fun _ _ _ hp' => absurd hp' hp, fun _ => rfl⟩, .of_eq rfl⟩
      cases he
      exact h
  | cons name rest ih =>
    intro last ip s h
    unfold namexLoop Disk.walk
    have hip := count_head_pos (P := P) ip T
    refine Run.bind (ilock_spec h hip fun hq' =>
      (h.sound (hq hq')).cached ip (h.ref_pos hip)) ?_
    rintro _ s₁ ⟨h₁, hf₁, hd₁, hv₁⟩
    have htype : (s₁.ic ip).copy.type = (s.disk.ino (s.ic ip).inum).type := by
      rw [h₁.copy hip hv₁, hd₁, hf₁.inum _ hip]
    have hput : Run (Fault q z) (fun r s' => Walked sb m P T parent none s r s' ∧
        Within sb s.disk s'.disk) (do iunlockput ip; pure none) s₁ :=
      (walk_put h₁).mono fun _ _ hw => ⟨hw.1.step hf₁.tail fun _ => hd₁, hd₁ ▸ hw.2⟩
    rw [← htype]
    refine Run.get_bind (Run.ite (fun hd => ?_) fun hdir => ?_)
    · rw [if_pos hd]
      exact hput
    rw [if_neg hdir]
    refine Run.ite (fun hlast => ?_) fun hlast => ?_
    · rw [if_pos hlast]
      refine Run.bind (iunlock_spec h₁ hip) ?_
      rintro _ s₂ ⟨h₂, hf₂, hd₂⟩
      have hi : (s₂.ic ip).inum = (s.ic ip).inum := (hf₂.inum _ hip).trans (hf₁.inum _ hip)
      refine Run.pure ⟨⟨hf₁.tail.trans hf₂.tail, fun _ => hd₂.trans hd₁, (nomatch ·),
        fun u n he => ?_, fun u n he _ => ?_, fun _ => by rw [← hi]; rfl⟩, .of_eq (hd₂.trans hd₁)⟩
      · cases he
        exact h₂
      · cases he
        refine ⟨hf₂.valid _ hip hv₁, ?_⟩
        rw [hd₂, hf₂.inum _ hip, ← h₁.copy hip hv₁]
        exact not_not.mp hdir
    · rw [if_neg hlast]
      refine Run.bind (dirlookup_spec h₁ hip hv₁ name) ?_
      rintro r s₂ ⟨-, hd₂, hf₂, hr⟩
      rw [hd₁, hf₁.inum _ hip] at hr
      rcases hr with ⟨rfl, rfl, hn⟩ | ⟨next, j, rfl, hj, hi, h₂, -⟩
      · rw [hn]
        exact hput
      · have h₂' : Good sb m P (ip :: next :: T) s₂ := h₂.perm (List.Perm.swap ..)
        refine Run.bind (iunlockput_spec h₂') ?_
        rintro _ s₃ ⟨h₃, hf₃, hput⟩
        have hd₃ : m.linked → s₃.disk = s.disk :=
          fun hl => (hput.disk_eq h₂' hl).trans (hd₂.trans hd₁)
        have hi₃ : (s₃.ic next).inum = (s₂.ic next).inum := hf₃.inum _ (count_head_pos next T)
        have hin : Within sb s.disk s₃.disk := by
          rw [← hd₁, ← hd₂]
          exact hput.within
        refine (ih name next s₃ h₃).mono fun _ _ ⟨hw, hin'⟩ =>
          ⟨Walked.step { hw with path := ?_ } ?_ hd₃, hin.trans hin'⟩
        · intro hl
          rw [hw.path hl, hj, hd₃ hl, hi₃, hi]
          rfl
        · exact (hf₁.tail.trans hf₂.tail).trans hf₃.tail

theorem namex_spec (p : Pid) (path : List UInt8) (parent : Bool) (h : Good sb m P T s)
    (hq : q → m.sound) (hcwd : ∀ c, (s.proc p).cwd = some c → 0 < P c) :
    Run (Fault q z) (fun r s' => Walked sb m P T parent (s.resolve sb p path parent) s r s' ∧
      Within sb s.disk s'.disk) (namex sb dev p path parent) s := by
  unfold namex State.resolve
  -- the walk starts at `ip`, which the call has just taken
  have hwalk : ∀ ip s₁ i, Good sb m P (ip :: T) s₁ → Frame P T s s₁ → s₁.disk = s.disk →
      (s₁.ic ip).inum = i → ∀ l, Run (Fault q z) (fun r s' => Walked sb m P T parent
        (s.disk.walk sb parent i [] l) s r s' ∧ Within sb s.disk s'.disk)
        (namexLoop sb dev parent ip [] l) s₁ := by
    rintro ip s₁ _ h₁ hf hd rfl l
    rw [← hd]
    exact (namexLoop_spec parent hq _ _ ip s₁ h₁).mono fun _ _ hw =>
      ⟨hw.1.step hf fun _ => hd, hw.2⟩
  refine Run.get_bind (Run.ite (fun habs => ?_) fun habs => ?_)
  · simp only [if_pos habs]
    refine Run.bind (iget_spec h sb.root fun hs => (h.sound hs).root) ?_
    rintro ip s₁ ⟨h₁, hf, hi, hd, -⟩
    exact hwalk ip s₁ _ h₁ hf hd hi _
  · simp only [if_neg habs]
    cases hc : (s.proc p).cwd with
    | none => exact Run.bind (Run.throw (Fault.of (by decide))) fun _ _ => False.elim
    | some c =>
      have hpos : 0 < P c + T.count c := by
        have := hcwd c hc
        omega
      refine Run.bind (idup_spec h hpos) ?_
      rintro ip s₁ ⟨rfl, h₁, hf, hd⟩
      exact hwalk ip s₁ _ h₁ hf hd (hf.inum _ hpos) _

/-- What `namei` leaves. -/
theorem namei_spec (p : Pid) (path : List UInt8) (h : Good sb m P T s) (hq : q → m.sound)
    (hcwd : ∀ c, (s.proc p).cwd = some c → 0 < P c) :
    Run (Fault q z) (fun r s' => Frame P T s s' ∧ (m.linked → s'.disk = s.disk) ∧
      (r = none → Good sb m P T s') ∧ ∀ u, r = some u → Good sb m P (u :: T) s')
      (namei sb dev p path) s := by
  unfold namei
  refine Run.bind (namex_spec p path false h hq hcwd) ?_
  rintro r s' ⟨hw, -⟩
  refine Run.pure ⟨hw.frame, hw.disk, fun hr => hw.lost (Option.map_eq_none_iff.mp hr), ?_⟩
  intro u hu
  obtain ⟨⟨v, name⟩, hr, rfl⟩ := Option.map_eq_some_iff.mp hu
  exact hw.found v name hr

end Xv6.Fs
