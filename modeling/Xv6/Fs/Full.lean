import Xv6.Fs.DirMap

/-!
# Full directories

A directory of the largest size without an empty entry has no room for a name: `writei` returns
-1, and `dirlink` panics.  A call ends in this panic only if it has found a directory that was full
before the call.
-/

namespace Xv6.Fs

variable {sb : Superblock} {dev : Devsw} {s : State} {t : ISlot}

/-- A new name does not go into a full directory. -/
theorem IsDir.dirlink_full (h : IsDir sb t s) {name : List UInt8} (inum : Nat)
    (hn : (s.over t).lookup sb (s.ic t).inum name = none)
    (hf : (s.over t).Full sb (s.ic t).inum) :
    dirlink sb dev t name inum s = .error .dirlink := by
  have hbig := h.full_iff.2 hf
  rw [h.dirlink_absent inum hn, seq_ok (writei_too_big h.not_dev (by rwa [encode_length]))]
  rfl

/-- In every state of every run from a well-formed image: no call ends in `create: dirlink`, and
none ends in `dirlink` if no directory is full.  In a cached directory `dirlink` itself ends in it
exactly if the name is new and the directory is full. -/
theorem dirlink_panics_full (h : (machine sb dev (WellFormed sb)).Reach s) :
    (∀ p a, exec sb dev p a s ≠ .error .createDirlink ∧
      (¬ s.disk.Jammed sb → exec sb dev p a s ≠ .error .dirlink)) ∧
    ∀ t name inum, 0 < (s.ic t).ref → (s.ic t).valid = true →
      (s.disk.ino (s.ic t).inum).type = T_DIR → inum < sb.ninodes →
      (dirlink sb dev t name inum s = .error .dirlink ↔
        s.disk.lookup sb (s.ic t).inum name = none ∧ s.disk.Full sb (s.ic t).inum) := by
  have hi := reach_idle h
  refine ⟨fun p a => ?_, fun t name inum hr hv hd hin => ?_⟩
  · have hspec : Run (Fault False _) _ (exec sb dev p a) s := exec_spec hi False.elim p a
    exact ⟨fun he => (hspec.of_error he).2.1 rfl, fun hj he => hj ((hspec.of_error he).2.2 rfl)⟩
  · have ht : 0 < s.holders t + ([] : List ISlot).count t := hi.good.ref t ▸ hr
    have hover := over_eq (hi.good.copy ht hv)
    constructor
    · intro hp
      have hspec : Run (Fault False (s.disk.lookup sb (s.ic t).inum name = none ∧
          s.disk.Full sb (s.ic t).inum)) _ (dirlink sb dev t name inum) s :=
        dirlink_spec hi.good ht hv name hin False.elim fun _ hn hf => ⟨hn, hf⟩
      exact (hspec.of_error hp).2.2 rfl
    · rintro ⟨hn, hf⟩
      refine (hi.good.isDir ht hv hd).dirlink_full inum ?_ ?_
      · rwa [hover]
      · rwa [hover]

/-- Nothing is full on the image with only a root. -/
theorem dirlink_panics_full_root : ∃ s, (machine mkfsSb nullDev (WellFormed mkfsSb)).Reach s ∧
    exec mkfsSb nullDev 0 (.mkdir [97]) s ≠ .error .dirlink := by
  have hreach : (machine mkfsSb nullDev (WellFormed mkfsSb)).Reach (boot rootImage) :=
    .init ⟨_, rootImage_mkfs.wellFormed, rfl⟩
  refine ⟨_, hreach, ((dirlink_panics_full hreach).1 0 (.mkdir [97])).2 ?_⟩
  rintro ⟨i, hl, -, hs, -⟩
  obtain rfl := rootImage_live.1 hl
  exact absurd hs (by decide)

/-! ## A new file in a full directory -/

theorem fullImage_full : fullImage.Full mkfsSb ROOTINO := by
  refine ⟨rfl, fun k hk => ?_⟩
  rw [fullImage_dirent hk]
  show fullInum k ≠ 0
  unfold fullInum
  split
  · decide
  · omega

/-- No name of the image starts with the byte 1. -/
theorem fullImage_lookup : fullImage.lookup mkfsSb ROOTINO [1] = none := by
  refine List.find?_eq_none.2 fun k hk => ?_
  have hk : k < fullImage.entries ROOTINO := by simpa using hk
  rw [fullImage_dirent hk]
  have hname : namecmp [1] (strncpy (fullName k)) = false := by
    unfold fullName
    split
    · decide
    · split
      · decide
      · have hne : (UInt8.ofNat (65 + k % 67)).toNat = 65 + k % 67 := by
          rw [UInt8.toNat_ofNat']
          omega
        generalize UInt8.ofNat (65 + k % 67) = a at hne ⊢
        generalize UInt8.ofNat (65 + k / 67) = b
        have ha₀ : a ≠ 0 := by
          rintro rfl
          exact absurd hne (by simp; omega)
        have ha₁ : 1 ≠ a := by
          rintro rfl
          exact absurd hne (by simp; omega)
        simp [namecmp, strncpy, cname, ha₀, ha₁]
  simp [hname]

/-- The state of `m` at its end. -/
def after {α : Type} (m : M α) (s : State) : State :=
  match m s with
  | .ok x => x.2
  | .error _ => s

/-- The path "/\x01" has been followed to its parent. -/
def walked : State := after (nameiparent mkfsSb nullDev 0 [47, 1]) { boot fullImage with tx := true }

def parentLocked : State := after (ilock 0) walked

def fileLocked : State := after (ilock 1) (after (ialloc mkfsSb T_FILE) parentLocked)

def setUp : Dinode → Dinode := fun d => { d with major := 0, minor := 0, nlink := 1 }

/-- Inode 66 is the new file. -/
def fileMade : State := after (iupdate 1) (after (modC 1 setUp) fileLocked)

theorem fullImage_isDir {x : State} (hi : (x.ic 0).inum = ROOTINO) (hc : (x.ic 0).copy = bigInode)
    (hb : x.disk.blk = fullImage.blk) :
    IsDir mkfsSb 0 x ∧ SameDir mkfsSb fullImage (x.over 0) ROOTINO := by
  have hino : (x.over 0).ino ROOTINO = fullImage.ino ROOTINO := by
    rw [State.over, hi, Disk.setIno_self, hc]
    rfl
  have hb' : (x.over 0).blk = fullImage.blk := hb
  refine ⟨⟨?_, ?_, ?_, fun n hn => ?_⟩, .of_data hino (Disk.data_of_ino hino hb')⟩
  · rw [hi]
    refine ⟨by decide, ?_⟩
    rw [hino]
    decide
  · rw [hc]
    rfl
  · rw [hc]
    decide
  · rw [hi, Disk.addr_of_ino hino hb']
    rw [hc] at hn
    exact fullImage_wellFormed.ok.nohole ROOTINO bigDir_root n hn

theorem createNew_full :
    createNew mkfsSb nullDev 0 [1] T_FILE 0 0 parentLocked = .error .dirlink := by
  obtain ⟨hdir, hsame⟩ := fullImage_isDir (x := fileMade) rfl rfl rfl
  have hpanic : dirlink mkfsSb nullDev 0 [1] 66 fileMade = .error .dirlink :=
    hdir.dirlink_full 66 ((hsame.lookup [1]).trans fullImage_lookup) (hsame.full.2 fullImage_full)
  have hnew : ialloc mkfsSb T_FILE parentLocked =
      .ok (1, after (ialloc mkfsSb T_FILE) parentLocked) := rfl
  have hlock : ilock 1 (after (ialloc mkfsSb T_FILE) parentLocked) = .ok ((), fileLocked) := rfl
  have hset : modC 1 setUp fileLocked = .ok ((), after (modC 1 setUp) fileLocked) := rfl
  have hupd : iupdate 1 (after (modC 1 setUp) fileLocked) = .ok ((), fileMade) := rfl
  show (ialloc mkfsSb T_FILE >>= fun ip => _) parentLocked = _
  rw [seq_ok hnew]
  show (ilock 1 >>= fun _ => modC 1 setUp >>= fun _ => iupdate 1 >>= fun _ => _) _ = _
  rw [seq_ok hlock, seq_ok hset, seq_ok hupd, seq_get, if_neg (by decide)]
  exact seq_error hpanic

/-- `open` with `O_CREATE` of a new name, as the first call on an image with a full root and with
free blocks and inodes. -/
theorem open_full_directory : (machine mkfsSb nullDev (WellFormed mkfsSb)).Reach (boot fullImage) ∧
    exec mkfsSb nullDev 0 (.openFile [47, 1] O_CREATE) (boot fullImage) = .error .dirlink := by
  refine ⟨.init ⟨_, fullImage_wellFormed, rfl⟩, ?_⟩
  obtain ⟨hdir, hsame⟩ := fullImage_isDir (x := parentLocked) rfl rfl rfl
  have hlook : dirlookup mkfsSb nullDev 0 [1] parentLocked = .ok (none, parentLocked) := by
    have heq : dirlookup mkfsSb nullDev 0 [1] parentLocked = _ := hdir.dirlookup_eq nullDev [1]
    rwa [show (parentLocked.ic 0).inum = ROOTINO from rfl, hsame.lookup, fullImage_lookup] at heq
  have hcreate : create mkfsSb nullDev 0 [47, 1] T_FILE 0 0 { boot fullImage with tx := true } =
      .error .dirlink := by
    have hwalk : nameiparent mkfsSb nullDev 0 [47, 1] { boot fullImage with tx := true } =
      .ok (some (0, [1]), walked) := rfl
    have hlock : ilock 0 walked = .ok ((), parentLocked) := rfl
    unfold create
    rw [seq_ok hwalk]
    dsimp only
    rw [seq_ok hlock, seq_ok hlook]
    exact seq_error createNew_full
  unfold exec sysOpen
  dsimp only
  rw [seq_ok (rfl : beginOp (boot fullImage) = .ok ((), { boot fullImage with tx := true })),
    if_pos (by decide)]
  exact seq_error hcreate

end Xv6.Fs
