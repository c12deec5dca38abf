import Xv6.Mkfs.Main

/-!
# The numbers that `mkfs` hands out

Only `ialloc` looks at the count of inodes, and nothing compares it with the size of the inode
area.  `iappend` and `winode` therefore do the same whatever it is (`Commutes`), the count after
a run is known for every list of files, and with more than `NINODES - 2` of them a number is
handed out that is none of an inode.  The count of blocks is not compared with anything either,
but a block behind the end of the image cannot be read, so that `mkfs` exits with status 1.
-/

namespace Xv6.Mkfs

open List
open Fs

variable {s s' : Image} {D D' : Disk} {i : Nat} {n : Nat} {files : List HostFile}

/-- The image with another count of inodes and an older trace. -/
def Image.recount (s : Image) (f : Nat) (l : List Event) : Image :=
  { s with freeinode := f, trace := s.trace ++ l }

section
variable (f : Nat) (l : List Event)

theorem rsect_commutes (sec : Nat) : Commutes (Image.recount · f l) (rsect sec) := by
  intro s
  rw [rsect_eq, rsect_eq]
  show (if sec < s.nsect then _ else _) = _
  split <;> rfl

theorem wsect_commutes (sec : Nat) (buf : Bytes) :
    Commutes (Image.recount · f l) (wsect sec buf) := fun _ => rfl

theorem winode_commutes (inum : Nat) (d : Dinode) :
    Commutes (Image.recount · f l) (winode inum d) :=
  (rsect_commutes f l _).bind fun _ => (wsect_commutes f l _ _).bind fun _ _ => rfl

theorem rinode_commutes (inum : Nat) : Commutes (Image.recount · f l) (rinode inum) :=
  (rsect_commutes f l _).bind fun _ => .pure _

theorem nextBlock_commutes : Commutes (Image.recount · f l) nextBlock := fun _ => rfl

theorem slot_commutes (din : Dinode) (k : Fin (NDIRECT + 1)) :
    Commutes (Image.recount · f l) (slot din k) :=
  .ite ((nextBlock_commutes f l).bind fun _ => .pure _) (.pure _)

theorem entry_commutes (a j : Nat) : Commutes (Image.recount · f l) (entry a j) := by
  refine (rsect_commutes f l a).bind fun indirect => .ite ?_ (.pure _)
  exact (nextBlock_commutes f l).bind fun b => (wsect_commutes f l _ _).bind fun _ => .pure _

theorem block_commutes (din : Dinode) (fbn : Nat) :
    Commutes (Image.recount · f l) (block din fbn) := by
  unfold block
  split
  · exact slot_commutes f l _ _
  · exact (slot_commutes f l _ _).bind fun _ => (entry_commutes f l _ _).bind fun _ => .pure _

theorem appendLoop_commutes (fuel : Nat) : ∀ (din : Dinode) (off : Nat) (p : List UInt8),
    Commutes (Image.recount · f l) (appendLoop fuel din off p) := by
  induction fuel with
  | zero => exact fun _ _ _ => .pure _
  | succ fuel ih =>
    intro din off p
    refine .ite (.pure _) (.ite (.throw _) ?_)
    refine (block_commutes f l _ _).bind fun _ => (rsect_commutes f l _).bind fun _ => ?_
    exact (wsect_commutes f l _ _).bind fun _ => ih _ _ _

theorem iappend_commutes (inum : Nat) (p : List UInt8) :
    Commutes (Image.recount · f l) (iappend inum p) :=
  (rinode_commutes f l _).bind fun _ => (appendLoop_commutes f l _ _ _ _).bind fun _ =>
    winode_commutes f l _ _

theorem fixRoot_commutes (inum : Nat) : Commutes (Image.recount · f l) (fixRoot inum) :=
  (rinode_commutes f l _).bind fun _ => winode_commutes f l _ _

theorem finish_commutes : Commutes (Image.recount · f l)
    (do fixRoot ROOTINO; let s ← get; balloc s.freeblock) := by
  refine (fixRoot_commutes f l _).bind fun _ s => ?_
  show (if s.freeblock < BSIZE * 8 then _ else _ : M Unit) _ =
    Except.map _ ((if s.freeblock < BSIZE * 8 then _ else _ : M Unit) s)
  split <;> rfl

end

/-! ## Every number up to the count has been handed out -/

/-- `n` is the next inode, and the numbers after the root's have been handed out. -/
def Counted (n : Nat) (s : Image) : Prop :=
  s.freeinode = n ∧ ∀ k, ROOTINO < k → k < n → .inode k ∈ s.trace

theorem Counted.mono (h : Counted n s) (hf : s'.freeinode = s.freeinode) (ht : s.trace ⊆ s'.trace) :
    Counted n s' :=
  ⟨hf.trans h.1, fun k h1 hk => ht (h.2 k h1 hk)⟩

theorem Commutes.counted {α : Type} {m : M α} (hm : ∀ f l, Commutes (Image.recount · f l) m)
    (h : Counted n s) : Run (fun _ => True) (fun _ s' => Counted n s') m s := by
  have hs : s = Image.recount { s with trace := [] } s.freeinode s.trace := rfl
  rw [hs]
  refine (hm _ _).run (Run.trivial.mono fun a s' _ => h.mono rfl ?_)
  exact subset_append_right _ _

theorem ialloc_counted (h : Counted n s) (type : BitVec 16) :
    Run (fun _ => True) (fun _ s' => Counted (n + 1) s') (ialloc type) s := by
  have h₁ : Counted (n + 1) { s with
      freeinode := s.freeinode + 1, trace := .inode s.freeinode :: s.trace } := by
    refine ⟨congrArg (· + 1) h.1, fun k h1 hk => ?_⟩
    rcases Nat.lt_succ_iff_lt_or_eq.1 hk with hk | rfl
    · exact mem_cons_of_mem _ (h.2 k h1 hk)
    · rw [h.1]
      exact mem_cons_self
  show Run _ (fun _ s' => Counted (n + 1) s')
    (winode s.freeinode (newInode type) >>= fun _ => pure s.freeinode) _
  exact Run.bind (Commutes.counted (fun f l => winode_commutes f l _ _) h₁) fun _ s' hs =>
    Run.pure hs

theorem addFile_counted (h : Counted n s) (f : HostFile) :
    Run (fun _ => True) (fun _ s' => Counted (n + 1) s') (addFile ROOTINO f) s := by
  refine Run.ite (fun _ => Run.throw trivial) fun _ => Run.bind (ialloc_counted h _) ?_
  intro inum s₁ h₁
  refine Run.bind (Commutes.counted (fun f l => iappend_commutes f l _ _) h₁) fun _ s₂ h₂ => ?_
  exact Commutes.counted (fun f l => .forM (fun p => iappend_commutes f l _ p) _) h₂

theorem main_counted (files : List HostFile) :
    Run (fun _ => True) (fun _ s => Counted (files.length + 2) s) (main files) start := by
  obtain ⟨s₁, D₁, hr, h₁⟩ := makeRoot_eq
  unfold main
  refine Run.bind_eq hr ?_
  have hroot : Counted 2 s₁ := by
    refine ⟨h₁.freeinode, fun k h1 hk => ?_⟩
    dsimp only [ROOTINO] at h1
    omega
  have hfiles : Run (fun _ => True) (fun _ s => Counted (files.length + 2) s)
      (files.forM (addFile ROOTINO)) s₁ := by
    refine (Run.forM (fun rest s => ∃ n, n + rest.length = files.length + 2 ∧ Counted n s) ?_ files
      ⟨2, Nat.add_comm .., hroot⟩).mono ?_
    · rintro f rest s ⟨n, hn, h⟩
      refine (addFile_counted h f).mono fun _ s' h' => ⟨n + 1, ?_, h'⟩
      rw [length_cons] at hn
      omega
    · rintro _ s ⟨n, hn, h⟩
      exact hn ▸ h
  refine Run.bind hfiles fun _ s₂ h₂ => ?_
  refine Run.bind (Commutes.counted (fun f l => fixRoot_commutes f l _) h₂) fun _ s₃ h₃ => ?_
  refine Run.get_bind (Run.ite (fun _ => ?_) fun _ => Run.throw trivial)
  exact Commutes.counted (fun f l => wsect_commutes f l _ _) h₃

theorem mkfs_eq_ok (h : mkfs files = .ok s) : main files start = .ok ((), s) := by
  unfold mkfs at h
  cases hr : main files start with
  | error e =>
    rw [hr] at h
    cases h
  | ok x =>
    rw [hr] at h
    cases h
    rfl

/-- In every image, whether or not its inodes fit into the inode area. -/
theorem mkfs_counted (h : mkfs files = .ok s) : Counted (files.length + 2) s :=
  (main_counted files).of_ok (mkfs_eq_ok h)

theorem mkfs_finished (h : mkfs files = .ok s) (hlt : files.length ≤ NINODES - 2) :
    Acceptable files ∧ ∃ D, Finished files s D :=
  (main_spec hlt).of_ok (mkfs_eq_ok h)

theorem mkfs_of_acceptable (h : Acceptable files) (hlt : files.length ≤ NINODES - 2) :
    ∃ s D, mkfs files = .ok s ∧ Finished files s D := by
  obtain ⟨_, s, hr, -, D, hf⟩ := ((main_spec hlt).error_mono fun _ hbad => hbad h).exists_of
  refine ⟨s, D, ?_, hf⟩
  unfold mkfs
  rw [hr]
  rfl

/-! ## One file too many -/

/-- The inode behind the last one is written into the last inode block, where it is in no one's
way. -/
theorem Built.extra {ns : List Node} (h : Built ns s D) (d : Dinode) :
    Built ns { s with sect := layout.iupdate s.sect NINODES d, trace := [] } D := by
  have hblock : layout.iblock NINODES = 57 := rfl
  have hother : ∀ b, b ≠ 57 → layout.iupdate s.sect NINODES d b = s.sect b := fun b hb =>
    Function.update_of_ne hb ..
  have hmeta : nmeta = 59 := rfl
  refine ⟨⟨⟨h.nsect, h.low, h.high, h.bit, fun b hb => ?_, fun b hb => ?_, fun e he => ?_⟩,
    fun j hj => ?_, ?_⟩, h.exact, h.inodes, h.freeinode, h.freeblock, h.stored, h.unused⟩
  · exact (hother b (by omega)).trans (h.blk b hb)
  · have := h.low
    have hb : s.freeblock ≤ b := hb
    exact (hother b (by omega)).trans (h.zero b hb)
  · exact absurd he not_mem_nil
  · rw [Layout.dinode_iupdate_of_ne _ _ _ (Nat.ne_of_lt hj)]
    exact h.ino j hj
  · exact (hother 1 (by decide)).trans h.super

theorem ialloc_extra {ns : List Node} (h : Built ns s D) (hn : ns.length + 1 = NINODES)
    (type : BitVec 16) : ialloc type s = .ok (NINODES, Image.recount
      { s with sect := layout.iupdate s.sect NINODES (newInode type), trace := [] } (NINODES + 1)
      (.winode (layout.iblock NINODES) :: .inode NINODES :: s.trace)) := by
  have hf : s.freeinode = NINODES := h.freeinode.trans hn
  have hlt : layout.iblock NINODES < s.nsect := by
    rw [h.nsect]
    decide
  show (winode s.freeinode (newInode type) >>= fun _ => pure s.freeinode) _ = _
  rw [hf, seq_ok (winode_eq (by exact hlt) _)]
  rfl

/-- With the inodes used up, one more empty file is put on the image. -/
theorem mkfs_extra (hn : files.length = NINODES - 2) (hacc : Acceptable files) {f : HostFile}
    (hslash : 47 ∉ f.name) (hempty : f.pieces = []) (hfits : Fits (nodes (files ++ [f]))) :
    ∃ s, mkfs (files ++ [f]) = .ok s := by
  obtain ⟨s₁, D₁, hr, h₁⟩ := makeRoot_eq
  have hlt : files.length + 1 < NINODES := by rw [hn]; decide
  obtain ⟨_, s₂, hr₂, -, D₂, h₂⟩ :=
    ((addFiles_spec h₁ hlt).error_mono fun _ hbad => hbad hacc).exists_of
  have hlen : (nodes files).length + 1 = NINODES := by rw [nodes_length, hn]; rfl
  have hi := ialloc_extra h₂ hlen T_FILE
  -- the entry goes into the root directory, whatever the count of inodes is
  have hroot : Fits ((T_DIR, rootBytes files ++ Dirent.encode (skipUnderscore f.name) NINODES) ::
      files.map fun f => (T_FILE, f.bytes)) := by
    refine hfits.below (.cons ?_ ?_)
    · rw [rootBytes_length, length_append, rootBytes_length, encode_length,
        length_append]
      rfl
    · have := (below_nodes files [f])
      cases this with
      | cons _ h => exact h
  obtain ⟨_, s₃, hr₃, D₃, h₃⟩ := ((Built.iappend [] (h₂.extra (newInode T_FILE))
    (encode_ne_nil (skipUnderscore f.name) NINODES)).error_mono fun _ hbad => hbad hroot).exists_of
  generalize Event.winode (layout.iblock NINODES) :: .inode NINODES :: s₂.trace = l at hi
  have hroot : iappend ROOTINO (Dirent.encode (skipUnderscore f.name) NINODES)
      (Image.recount { s₂ with
        sect := layout.iupdate s₂.sect NINODES (newInode T_FILE), trace := [] } (NINODES + 1) l) =
      .ok ((), s₃.recount (NINODES + 1) l) := by
    rw [iappend_commutes (NINODES + 1) l]
    exact congrArg (Except.map _) hr₃
  have hadd : addFile ROOTINO f s₂ = .ok ((), s₃.recount (NINODES + 1) l) := by
    unfold addFile
    rw [if_neg hslash, seq_ok hi, hempty]
    exact (seq_ok hroot).trans rfl
  have hone : (forM [f] (addFile ROOTINO) : M PUnit) s₂ =
      .ok (⟨⟩, s₃.recount (NINODES + 1) l) :=
    (seq_ok hadd).trans rfl
  obtain ⟨s₄, hlast⟩ : ∃ s₄, (do fixRoot ROOTINO; let s ← get; balloc s.freeblock : M Unit)
      (s₃.recount (NINODES + 1) l) = .ok ((), s₄) := by
    rw [finish_commutes (NINODES + 1) l, finish_eq h₃.toBlocks]
    exact ⟨_, rfl⟩
  refine ⟨s₄, ?_⟩
  unfold mkfs main
  rw [seq_ok hr]
  show Prod.snd <$> (forM (files ++ [f]) (addFile ROOTINO) >>= _ : M Unit) s₁ = _
  rw [forM_append, bind_assoc]
  show Prod.snd <$> (files.forM (addFile ROOTINO) >>= _ : M Unit) s₁ = _
  rw [seq_ok hr₂]
  rw [seq_ok hone]
  exact congrArg (Prod.snd <$> ·) hlast

/-- An empty file with the name `a`. -/
def emptyFile : HostFile := ⟨[97], by decide, [], by decide⟩

theorem acceptable_empty (hn : n < NINODES) : Acceptable (List.replicate n emptyFile) := by
  have hroot : (rootBytes (List.replicate n emptyFile)).length = 16 * (n + 2) := by
    rw [rootBytes_length, length_replicate]
  dsimp only [NINODES] at hn
  refine ⟨fun f hf => ?_, fun m hm => ?_, ?_⟩
  · rw [eq_of_mem_replicate hf]
    decide
  · rcases mem_cons.1 hm with rfl | hm
    · rw [hroot]
      dsimp only [MAXFILE, NDIRECT, NINDIRECT, BSIZE]
      omega
    · rw [map_replicate] at hm
      rw [eq_of_mem_replicate hm]
      exact Nat.zero_le _
  · have hfiles : usedBlocks emptyFile.bytes.length = 0 := by decide
    have hsum : (List.replicate n 0).sum = 0 := by simp
    simp only [nodes, totalBlocks, map_cons, map_replicate, sum_cons, hroot, hfiles,
      hsum, Nat.add_zero]
    have : dataBlocks (16 * (n + 2)) ≤ 7 := by
      unfold dataBlocks
      dsimp only [BSIZE]
      omega
    have hused : usedBlocks (16 * (n + 2)) ≤ 8 := by
      unfold usedBlocks
      split <;> omega
    exact (Nat.add_le_add_left hused nmeta).trans (by decide)

/-- **`mkfs` stays within the geometry of the superblock exactly if there are inodes for all
files.**  Inode numbers, the blocks that are put into inodes and indirect blocks, and the sectors
that inodes are written to are in range. -/
theorem mkfs_within_iff {files : List HostFile} (h : mkfs files = .ok s) :
    (∀ e ∈ s.trace, e.Within) ↔ files.length ≤ NINODES - 2 := by
  constructor
  · intro hall
    by_contra hgt
    have hmem : Event.inode NINODES ∈ s.trace := by
      refine (mkfs_counted h).2 NINODES (by decide) ?_
      dsimp only [NINODES] at hgt ⊢
      omega
    exact absurd (hall _ hmem) (Nat.lt_irrefl NINODES)
  · intro hlt
    obtain ⟨-, D, hf⟩ := mkfs_finished h hlt
    exact hf.trace

/-- With 198 files all is within bounds. -/
theorem mkfs_within_full : ∃ s, mkfs (List.replicate 198 emptyFile) = .ok s ∧
    ∀ e ∈ s.trace, e.Within := by
  obtain ⟨s, D, h, -⟩ := mkfs_of_acceptable (acceptable_empty (n := 198) (by decide))
    (by rw [length_replicate]; decide)
  exact ⟨s, h, (mkfs_within_iff h).2 (by rw [length_replicate]; decide)⟩

/-- With 199 files `mkfs` exits with status 0, and one of them has inode 200. -/
theorem mkfs_without_inode : ∃ s, mkfs (List.replicate 199 emptyFile) = .ok s ∧
    .inode sb.ninodes ∈ s.trace ∧ ¬ ∀ e ∈ s.trace, e.Within := by
  have hsnoc : List.replicate 199 emptyFile = List.replicate 198 emptyFile ++ [emptyFile] :=
    replicate_succ'
  have hfits := (acceptable_empty (n := 199) (by decide)).2
  rw [hsnoc] at hfits ⊢
  obtain ⟨s, h⟩ := mkfs_extra length_replicate (acceptable_empty (by decide)) (by decide) rfl
    hfits
  have hmem : Event.inode sb.ninodes ∈ s.trace :=
    (mkfs_counted h).2 _ (by decide) (by rw [length_append, length_replicate]; decide)
  exact ⟨s, h, hmem, fun hall => absurd (hall _ hmem) (Nat.lt_irrefl _)⟩

end Xv6.Mkfs
