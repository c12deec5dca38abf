import Xv6.Fs.Files

/-!
# Images

What the runs start from.  `WellFormed` is all that block ownership needs; `Mkfs` is
what `mkfs` makes: a root directory and files with one name each, all of them in the
root.  `rootImage` is the image with the root alone.
-/

namespace Xv6.Fs

open List

variable {sb : Superblock} {D : Disk} {i : Nat} {image : Disk → Prop}

/-- Every block below the size of an inode is there. -/
def NoHoles (sb : Superblock) (D : Disk) : Prop :=
  ∀ i, D.Live sb i → ∀ n, n * BSIZE < (D.ino i).size → D.addr sb i n ≠ 0

/-- A well-formed image with a root. -/
structure WellFormed (sb : Superblock) (D : Disk) : Prop where
  ok : Ok sb D
  root : D.Live sb ROOTINO

/-- An image that `mkfs` makes, without a hole at the end of the root directory. -/
structure Mkfs (sb : Superblock) (D : Disk) : Prop where
  ok : Ok sb D
  root : (D.ino ROOTINO).type = T_DIR ∧ (D.ino ROOTINO).nlink = 1
  dots : 2 ≤ D.entries ROOTINO ∧
    (D.dirent sb ROOTINO 0).inum = ROOTINO ∧ cname (D.dirent sb ROOTINO 0).name = dot ∧
    (D.dirent sb ROOTINO 1).inum = ROOTINO ∧ cname (D.dirent sb ROOTINO 1).name = dotdot
  file : ∀ i, D.Live sb i → i ≠ ROOTINO → (D.ino i).type = T_FILE ∧ (D.ino i).nlink = 1 ∧
    ∃ k, 2 ≤ k ∧ k < D.entries ROOTINO ∧ (D.dirent sb ROOTINO k).inum = i
  name : ∀ k, 2 ≤ k → k < D.entries ROOTINO → (D.dirent sb ROOTINO k).inum ≠ 0 →
    D.Live sb (D.dirent sb ROOTINO k).inum ∧ (D.dirent sb ROOTINO k).inum ≠ ROOTINO ∧
    cname (D.dirent sb ROOTINO k).name ≠ dot ∧
    ∀ k', 2 ≤ k' → k' < D.entries ROOTINO →
      (D.dirent sb ROOTINO k').inum = (D.dirent sb ROOTINO k).inum → k' = k
  zero : (D.ino 0).type = 0

variable {k : Nat}

namespace Mkfs

section
variable (h : Mkfs sb D)
include h

theorem live_root : D.Live sb ROOTINO := by
  refine ⟨sb.root, ?_⟩
  rw [h.root.1]
  decide

theorem wellFormed : WellFormed sb D := ⟨h.ok, h.live_root⟩

theorem dir_iff (d : Nat) : (D.tree sb).type d = T_DIR ↔ d = ROOTINO := by
  refine ⟨fun hd => ?_, fun hd => hd ▸ Disk.tree_dir.mpr ⟨h.live_root, h.root.1⟩⟩
  obtain ⟨hl, ht⟩ := Disk.tree_dir.mp hd
  by_contra hne
  rw [(h.file d hl hne).1] at ht
  cases ht

theorem ent_eq (hk : k < D.entries ROOTINO) : (D.tree sb).ent ROOTINO k = D.dirent sb ROOTINO k :=
  Disk.tree_ent h.live_root h.root.1 hk

theorem nlink_root : (D.tree sb).nlink ROOTINO = 1 := by
  rw [Disk.tree_nlink h.live_root, h.root.2]

theorem up_root : (D.tree sb).up ROOTINO = ROOTINO := by
  unfold Tree.up
  rw [h.ent_eq (by have := h.dots.1; omega)]
  exact h.dots.2.2.2.1

/-- All names are in the root. -/
theorem mem_refs {x : Nat × Nat} : x ∈ (D.tree sb).refs i ↔
      x.1 = ROOTINO ∧ x.2 ≠ 0 ∧ ((D.tree sb).ent ROOTINO x.2).inum = i := by
  rw [Tree.mem_refs, h.dir_iff]
  refine ⟨fun ⟨h1, _, h3, h4⟩ => ⟨h1, h3, h1 ▸ h4⟩, fun ⟨h1, h2, h3⟩ => ⟨h1, ?_, h2, h1 ▸ h3⟩⟩
  rw [h1, h.nlink_root]
  decide

/-- The one entry of an inode. -/
theorem refs_eq (hk : k ≠ 0) (hi : ((D.tree sb).ent ROOTINO k).inum ≠ 0) :
    (D.tree sb).refs ((D.tree sb).ent ROOTINO k).inum = {(ROOTINO, k)} := by
  ext ⟨d, k'⟩
  rw [h.mem_refs, Set.mem_singleton_iff, Prod.mk.injEq]
  refine ⟨fun ⟨h1, h2, h3⟩ => ⟨h1, ?_⟩, fun ⟨h1, h2⟩ => ⟨h1, by omega, by rw [h2]⟩⟩
  have hk₁ := (Disk.tree_ent_ne hi).2.2
  have hk₂ := (Disk.tree_ent_ne (by rw [h3]; exact hi)).2.2
  simp only at h2 h3
  rw [h.ent_eq hk₁] at h3 hi
  rw [h.ent_eq hk₂] at h3
  by_cases h1' : k' = 1
  · subst h1'
    by_contra hne
    rw [h.dots.2.2.2.1] at h3
    exact (h.name k (by omega) hk₁ hi).2.1 h3.symm
  · by_cases hk1 : k = 1
    · subst hk1
      rw [h.dots.2.2.2.1] at h3
      exact absurd h3 (h.name k' (by omega) hk₂ (by rw [h3]; decide)).2.1
    · exact (h.name k (by omega) hk₁ hi).2.2.2 k' (by omega) hk₂ h3

theorem refs_root : (D.tree sb).refs ROOTINO = {(ROOTINO, 1)} := by
  have hup : ((D.tree sb).ent ROOTINO 1).inum = ROOTINO := h.up_root
  have h1 := h.refs_eq (k := 1) one_ne_zero (by rw [hup]; decide)
  rwa [hup] at h1

theorem named (hi : D.Live sb i) : ∃ k, k ≠ 0 ∧ ((D.tree sb).ent ROOTINO k).inum = i := by
  by_cases hr : i = ROOTINO
  · exact ⟨1, one_ne_zero, hr ▸ h.up_root⟩
  · obtain ⟨k, hk, hlt, he⟩ := (h.file i hi hr).2.2
    exact ⟨k, by omega, by rw [h.ent_eq hlt, he]⟩

theorem nlink_eq (hi : D.Live sb i) : (D.tree sb).nlink i = 1 := by
  rw [Disk.tree_nlink hi]
  by_cases hr : i = ROOTINO
  · rw [hr, h.root.2]
  · exact (h.file i hi hr).2.1

theorem zero_dead : ¬ D.Live sb 0 := fun hc => hc.2 h.zero

theorem exact : (D.tree sb).Exact := by
  have hdots := h.dots
  have hent := fun {k} (hk : k < 2) => h.ent_eq (Nat.lt_of_lt_of_le hk hdots.1)
  have hrefs : ∀ i, i ≠ 0 → ((D.tree sb).refs i).Finite ∧
      ((D.tree sb).nlink i).toNat = ((D.tree sb).refs i).ncard := by
    intro i hi
    by_cases hl : D.Live sb i
    · obtain ⟨k, hk, rfl⟩ := h.named hl
      rw [h.refs_eq hk hi, h.nlink_eq hl, Set.ncard_singleton]
      exact ⟨Set.finite_singleton _, rfl⟩
    · have hempty : (D.tree sb).refs i = ∅ := by
        ext ⟨d, k⟩
        rw [h.mem_refs]
        refine ⟨fun ⟨_, h2, h3⟩ => hl ?_, False.elim⟩
        have hk := (Disk.tree_ent_ne (by rw [h3]; exact hi)).2.2
        rw [h.ent_eq hk] at h3
        simp only at h2
        by_cases hk1 : k = 1
        · subst hk1
          rw [← h3, hdots.2.2.2.1]
          exact h.live_root
        · rw [← h3]
          exact (h.name k (by omega) hk (by rw [h3]; exact hi)).1
      rw [hempty, Set.ncard_empty]
      exact ⟨Set.finite_empty, congrArg BitVec.toNat (if_neg hl)⟩
  refine ⟨fun d hd => ?_, fun d hd => ?_, fun d k hi hk => ?_, fun d hd hl => ?_,
    fun i hi => (hrefs i hi).1, fun i hi => (hrefs i hi).2, ⟨(h.dir_iff _).mpr rfl, ?_, h.up_root⟩,
    fun x hx => ?_, fun d hd _ hr => absurd ((h.dir_iff d).mp hd) hr, fun d hd x hx y hy hx2 _ => ?_,
    fun i hi => ?_, ?_⟩
  · rw [(h.dir_iff d).mp hd, hent (by decide)]
    exact ⟨hdots.2.1, hdots.2.2.1⟩
  · rw [(h.dir_iff d).mp hd, h.up_root, hent (by decide)]
    exact ⟨by decide, hdots.2.2.2.2⟩
  · obtain ⟨hl, ht, hlt⟩ := Disk.tree_ent_ne hi
    rw [Disk.tree_ent hl ht hlt] at hi ⊢
    obtain rfl := (h.dir_iff d).mp (Disk.tree_dir.mpr ⟨hl, ht⟩)
    by_cases hk1 : k = 1
    · rw [hk1, hdots.2.2.2.2]
      decide
    · exact (h.name k (by omega) hlt hi).2.2.1
  · rw [(h.dir_iff d).mp hd, h.nlink_root] at hl
    cases hl
  · rw [h.nlink_root]
    decide
  · rw [h.refs_root, Set.mem_singleton_iff] at hx
    rw [hx]
    decide
  · rw [(h.dir_iff d).mp hd, h.refs_root, Set.mem_singleton_iff] at hx hy
    rw [hx, hy]
  · exact if_neg fun hc => Disk.tree_live.mpr hc hi
  · exact not_not.mp fun hc => h.zero_dead (Disk.tree_live.mp hc)

theorem rooted : (D.tree sb).Rooted := by
  intro c hc
  rw [(h.dir_iff c).mp hc, h.up_root, h.nlink_root]
  exact ⟨(h.dir_iff _).mpr rfl, by decide⟩

end

end Mkfs

/-! ## The smallest image -/

/-- The geometry of `mkfs`: `FSSIZE` blocks, of which 59 come before the data, and `NINODES`
inodes. -/
def mkfsSb : Superblock := ⟨2000, 1941, 200, by decide, by decide, by decide⟩

/-- The block of the root directory. -/
def rootBlock : Bytes :=
  Bytes.memmove (Bytes.memmove (fun _ => 0) 0 (Dirent.encode dot ROOTINO)) DESIZE
    (Dirent.encode dotdot ROOTINO)

/-- What `mkfs` makes when it is given no files. -/
def rootImage : Disk where
  bit b := b < 60
  ino i := if i = ROOTINO then { Dinode.fresh T_DIR with
      nlink := 1, size := BSIZE, addrs := fun k => if k = 0 then 59 else 0 }
    else { Dinode.fresh 0 with mode := 0 }
  blk b := if b = 59 then rootBlock else fun _ => 0

/-- A directory of two blocks, the first of which is missing. -/
def holedImage : Disk :=
  rootImage.setIno ROOTINO
    { rootImage.ino ROOTINO with size := 2 * BSIZE, addrs := fun k => if k = 1 then 59 else 0 }

theorem rootImage_live : rootImage.Live mkfsSb i ↔ i = ROOTINO := by
  refine ⟨fun h => ?_, fun h => h ▸ by decide⟩
  by_contra hne
  exact h.2 (by simp [rootImage, hne, Dinode.fresh])

theorem rootImage_slot (i : Nat) (k : Fin (NDIRECT + 1)) :
    rootImage.slot mkfsSb i k = if i = ROOTINO ∧ k = 0 then 59 else 0 := by
  unfold Disk.slot
  by_cases hi : i = ROOTINO
  · rw [if_pos (rootImage_live.mpr hi)]
    simp [rootImage, hi]
  · rw [if_neg (mt rootImage_live.mp hi), if_neg fun h => hi h.1]

theorem rootImage_ptr (r : Ptr) :
    rootImage.ptr mkfsSb r = if r = .direct ROOTINO 0 then 59 else 0 := by
  have hind : ∀ i, rootImage.slot mkfsSb i indSlot = 0 := fun i => by
    rw [rootImage_slot, if_neg fun h => absurd h.2 (by decide)]
  cases r with
  | direct i k =>
    rw [Disk.ptr, rootImage_slot]
    refine if_congr ?_ rfl rfl
    rw [Ptr.direct.injEq, Fin.ext_iff, Fin.ext_iff]
    rfl
  | indirect i => simp [Disk.ptr, hind]
  | entry i j => simp [Disk.ptr, hind]

theorem rootImage_ptr_ne {r : Ptr} (h : rootImage.ptr mkfsSb r ≠ 0) :
    r = .direct ROOTINO 0 ∧ rootImage.ptr mkfsSb r = 59 := by
  rw [rootImage_ptr] at h ⊢
  by_cases hr : r = .direct ROOTINO 0
  · exact ⟨hr, if_pos hr⟩
  · exact absurd (if_neg hr) h

theorem rootImage_dirents : ∀ k < rootImage.entries ROOTINO,
    (rootImage.dirent mkfsSb ROOTINO k).inum = if k < 2 then ROOTINO else 0 := by
  decide +kernel

theorem rootImage_ok : Ok mkfsSb rootImage := by
  refine ⟨⟨fun r hr => ?_, fun r hr => ?_, fun r r' hr he => ?_, fun b hb => ?_⟩,
    fun i hl n hn => ?_, fun i hl _ => ?_, fun i hl _ k hk => ?_⟩
  · rw [(rootImage_ptr_ne hr).2]
    decide
  · rw [(rootImage_ptr_ne hr).2]
    decide
  · rw [(rootImage_ptr_ne hr).1, (rootImage_ptr_ne (fun h0 => hr (he.trans h0))).1]
  · have hb : b < 59 := hb
    exact decide_eq_true (by omega : b < 60)
  · obtain rfl := rootImage_live.mp hl
    have h0 : n = 0 := by
      change n * 512 < 512 at hn
      omega
    rw [h0]
    decide +kernel
  · rw [rootImage_live.mp hl]
    decide
  · rw [rootImage_live.mp hl] at hk ⊢
    rw [rootImage_dirents k hk]
    split <;> decide

theorem rootImage_mkfs : Mkfs mkfsSb rootImage := by
  refine ⟨rootImage_ok, by decide, by decide +kernel,
    fun i hl hi => absurd (rootImage_live.mp hl) hi, fun k hk hlt hne => ?_, by decide⟩
  rw [rootImage_dirents k hlt, if_neg (by omega)] at hne
  exact absurd rfl hne

/-- The image with the root alone. -/
def OnlyRoot (D : Disk) : Prop := D = rootImage

/-! ## The largest directory -/

/-- A directory of the largest size, in the blocks 59 to 196 with the indirect block 197. -/
def bigInode : Dinode :=
  { Dinode.fresh T_DIR with
    nlink := 1, size := MAXFILE * BSIZE
    addrs := fun k => if k = indSlot then 197 else 59 + k.val }

/-- An image whose root directory has the largest size that an inode can have.  Entry `k` is
`name k`, for the inode `inum k`; the other inodes are `ino`, and have no blocks. -/
def bigDir (ino : Nat → Dinode) (inum : Nat → Nat) (name : Nat → List UInt8) : Disk where
  bit b := b < 198
  ino i := if i = ROOTINO then bigInode else ino i
  blk b :=
    if b = 197 then fun o => if o % 4 = 0 then UInt8.ofNat (69 + o / 4) else 0
    else fun o => (Dirent.encode (name ((b - 59) * 32 + o / DESIZE))
      (inum ((b - 59) * 32 + o / DESIZE))).getD (o % DESIZE) 0

section
variable {ino : Nat → Dinode} {inum : Nat → Nat} {name : Nat → List UInt8}

theorem bigDir_root : (bigDir ino inum name).Live mkfsSb ROOTINO := by
  refine ⟨by decide, ?_⟩
  show bigInode.type ≠ 0
  decide

theorem bigDir_size : ((bigDir ino inum name).ino ROOTINO).size = MAXFILE * BSIZE := rfl

variable (hino : ∀ i, (ino i).addrs = fun _ => 0)
include hino

theorem bigDir_slot (i : Nat) (k : Fin (NDIRECT + 1)) :
    (bigDir ino inum name).slot mkfsSb i k =
      if i = ROOTINO then if k = indSlot then 197 else 59 + k.val else 0 := by
  unfold Disk.slot
  by_cases hi : i = ROOTINO
  · subst hi
    rw [if_pos bigDir_root, if_pos rfl]
    rfl
  · rw [if_neg hi]
    split
    · show (if i = ROOTINO then bigInode else ino i).addrs k = 0
      rw [if_neg hi, hino]
    · rfl

/-- The blocks 59 to 196 in order, and the indirect block after them. -/
theorem bigDir_ptr (r : Ptr) : (bigDir ino inum name).ptr mkfsSb r =
    if r.ino = ROOTINO then match r with
      | .direct _ k => 59 + k.val
      | .indirect _ => 197
      | .entry _ j => 69 + j.val
    else 0 := by
  cases r with
  | direct i k =>
    rw [Disk.ptr, bigDir_slot hino]
    show (if i = ROOTINO then _ else 0) = if i = ROOTINO then _ else 0
    rw [if_neg (indSlot_ne k).symm]
    rfl
  | indirect i =>
    rw [Disk.ptr, bigDir_slot hino]
    rfl
  | entry i j =>
    rw [Disk.ptr, bigDir_slot hino]
    show _ = if i = ROOTINO then 69 + j.val else 0
    by_cases hi : i = ROOTINO
    · rw [if_pos hi, if_pos rfl, if_pos hi, if_neg (by decide)]
      have hj := j.isLt
      dsimp only [NINDIRECT] at hj
      show Bytes.word (fun o => if o % 4 = 0 then UInt8.ofNat (69 + o / 4) else 0) j = _
      unfold Bytes.word
      dsimp only
      rw [if_pos (by omega), if_neg (by omega), if_neg (by omega), if_neg (by omega),
        UInt8.toNat_ofNat', Nat.mul_div_cancel_left _ (by decide)]
      simp only [UInt8.toNat_zero]
      omega
    · rw [if_neg hi, if_neg hi, if_pos rfl]

theorem bigDir_owned : Owned mkfsSb (bigDir ino inum name) := by
  have hpos : ∀ r, (bigDir ino inum name).ptr mkfsSb r ≠ 0 → r.ino = ROOTINO := by
    intro r hr
    by_contra hne
    rw [bigDir_ptr hino, if_neg hne] at hr
    exact hr rfl
  have hrange : ∀ r, (bigDir ino inum name).ptr mkfsSb r ≠ 0 →
      59 ≤ (bigDir ino inum name).ptr mkfsSb r ∧ (bigDir ino inum name).ptr mkfsSb r < 198 := by
    intro r hr
    rw [bigDir_ptr hino, if_pos (hpos r hr)]
    cases r with
    | direct i k =>
      have := k.isLt
      dsimp only [NDIRECT] at *
      omega
    | indirect i =>
      show 59 ≤ 197 ∧ 197 < 198
      omega
    | entry i j =>
      have := j.isLt
      dsimp only [NINDIRECT] at *
      omega
  refine ⟨fun r hr => ?_, fun r hr => ?_, fun r r' hr he => ?_, fun b hb => ?_⟩
  · obtain ⟨h1, h2⟩ := hrange r hr
    have hstart : mkfsSb.dataStart = 59 := rfl
    have hend : mkfsSb.size = 2000 := rfl
    rw [hstart, hend]
    omega
  · exact decide_eq_true (hrange r hr).2
  · have h1 := hpos r hr
    have h2 := hpos r' (he ▸ hr)
    rw [bigDir_ptr hino, bigDir_ptr hino, if_pos h1, if_pos h2] at he
    cases r with
    | direct i k =>
      obtain rfl : i = ROOTINO := h1
      have := k.isLt
      cases r' with
      | direct i' k' =>
        obtain rfl : i' = ROOTINO := h2
        rw [Fin.ext (by dsimp only at he; omega : k.val = k'.val)]
      | indirect i' => dsimp only [NDIRECT] at *; omega
      | entry i' j' => dsimp only [NDIRECT] at *; omega
    | indirect i =>
      obtain rfl : i = ROOTINO := h1
      cases r' with
      | direct i' k' => have := k'.isLt; dsimp only [NDIRECT] at *; omega
      | indirect i' => rw [show i' = ROOTINO from h2]
      | entry i' j' => have := j'.isLt; dsimp only [NINDIRECT] at *; omega
    | entry i j =>
      obtain rfl : i = ROOTINO := h1
      have := j.isLt
      cases r' with
      | direct i' k' => have := k'.isLt; dsimp only [NDIRECT] at *; omega
      | indirect i' => dsimp only [NINDIRECT] at *; omega
      | entry i' j' =>
        obtain rfl : i' = ROOTINO := h2
        rw [Fin.ext (by dsimp only at he; omega : j.val = j'.val)]
  · have hb : b < 59 := hb
    exact decide_eq_true (by omega : b < 198)

theorem bigDir_addr {n : Nat} (hn : n < MAXFILE) :
    (bigDir ino inum name).addr mkfsSb ROOTINO n = 59 + n := by
  by_cases hd : n < NDIRECT
  · rw [Disk.addr_of_place (Disk.place_direct _ hd), bigDir_ptr hino]
    rfl
  · have hi : n - NDIRECT < NINDIRECT := by
      dsimp only [MAXFILE, NDIRECT, NINDIRECT] at *
      omega
    rw [Disk.addr_of_place (Disk.place_entry _ hd hi), bigDir_ptr hino]
    show 69 + (n - NDIRECT) = 59 + n
    dsimp only [NDIRECT] at *
    omega

theorem bigDir_dirent (hk : k < (bigDir ino inum name).entries ROOTINO) :
    (bigDir ino inum name).dirent mkfsSb ROOTINO k = ⟨inum k % 65536, strncpy (name k)⟩ := by
  rw [Disk.entries, bigDir_size] at hk
  dsimp only [MAXFILE, NDIRECT, NINDIRECT, BSIZE, DESIZE] at hk
  rw [← decode_encode]
  unfold Disk.dirent
  congr 1
  apply ext_getElem?
  intro x
  have hlen := encode_length (name k) (inum k)
  unfold Disk.bytes
  by_cases hx : x < DESIZE
  · have hx' : x < (Dirent.encode (name k) (inum k)).length := hlen ▸ hx
    rw [getElem?_map, getElem?_range hx, Option.map_some,
      getElem?_eq_getElem hx']
    dsimp only [DESIZE] at hx
    have hblock : (16 * k + x) / BSIZE < MAXFILE := by
      dsimp only [BSIZE, MAXFILE, NDIRECT, NINDIRECT]
      omega
    have hne : 59 + (16 * k + x) / BSIZE ≠ 197 := by
      dsimp only [BSIZE, MAXFILE, NDIRECT, NINDIRECT] at *
      omega
    have hentry : (59 + (16 * k + x) / BSIZE - 59) * 32 + (16 * k + x) % BSIZE / DESIZE = k := by
      dsimp only [BSIZE, DESIZE]
      omega
    have hbyte : (16 * k + x) % BSIZE % DESIZE = x := by
      dsimp only [BSIZE, DESIZE]
      omega
    have h0 : 59 + (16 * k + x) / BSIZE ≠ 0 := Nat.ne_of_gt (Nat.add_pos_left (by decide) _)
    unfold Disk.data
    rw [bigDir_addr hino hblock, if_neg h0]
    show some ((if 59 + (16 * k + x) / BSIZE = 197 then _ else _ : Bytes) ((16 * k + x) % BSIZE)) = _
    rw [if_neg hne, hentry, hbyte, getD_eq_getElem?_getD, getElem?_eq_getElem hx',
      Option.getD_some]
  · rw [getElem?_eq_none (by rw [length_map, length_range]; omega),
      getElem?_eq_none (by omega)]

theorem bigDir_wellFormed (htype : ∀ i, (ino i).type ≠ T_DIR) (hsize : ∀ i, (ino i).size = 0)
    (hinum : ∀ k, inum k < mkfsSb.ninodes) : WellFormed mkfsSb (bigDir ino inum name) := by
  have hother : ∀ i, i ≠ ROOTINO → (bigDir ino inum name).ino i = ino i := fun i hi => if_neg hi
  refine ⟨⟨bigDir_owned hino, fun i _ n hn => ?_, fun i _ hd => ?_, fun i _ hd k hk => ?_⟩,
    bigDir_root⟩
  · by_cases hi : i = ROOTINO
    · subst hi
      rw [bigDir_size] at hn
      rw [bigDir_addr hino (Nat.lt_of_mul_lt_mul_right hn)]
      omega
    · rw [hother i hi, hsize] at hn
      omega
  · by_cases hi : i = ROOTINO
    · rw [hi, bigDir_size]
      decide
    · rw [hother i hi] at hd
      exact absurd hd (htype i)
  · by_cases hi : i = ROOTINO
    · subst hi
      rw [bigDir_dirent hino hk]
      exact Nat.lt_of_le_of_lt (Nat.mod_le ..) (hinum k)
    · rw [hother i hi] at hd
      exact absurd hd (htype i)

end

/-- Inodes 2 to 65 are files. -/
def fullFile (i : Nat) : Dinode :=
  if 2 ≤ i ∧ i < 66 then { Dinode.fresh T_FILE with nlink := if i < 64 then 69 else 68 }
  else { Dinode.fresh 0 with mode := 0 }

def fullInum (k : Nat) : Nat := if k < 2 then ROOTINO else 2 + (k - 2) % 64

def fullName (k : Nat) : List UInt8 :=
  if k = 0 then dot else if k = 1 then dotdot
  else [UInt8.ofNat (65 + k % 67), UInt8.ofNat (65 + k / 67)]

/-- The root directory has no room for one more name; 64 files share the names. -/
def fullImage : Disk := bigDir fullFile fullInum fullName

theorem fullFile_addrs (i : Nat) : (fullFile i).addrs = fun _ => 0 := by
  unfold fullFile
  split <;> rfl

theorem fullImage_wellFormed : WellFormed mkfsSb fullImage := by
  refine bigDir_wellFormed fullFile_addrs (fun i => ?_) (fun i => ?_) fun k => ?_
  · unfold fullFile
    split
    · exact (by decide : T_FILE ≠ T_DIR)
    · exact (by decide : (0 : BitVec 16) ≠ T_DIR)
  · unfold fullFile
    split <;> rfl
  · show fullInum k < 200
    unfold fullInum
    split
    · decide
    · omega

theorem fullImage_live (h : fullImage.Live mkfsSb i) : 1 ≤ i ∧ i < 66 := by
  have h2 := h.2
  change (if i = ROOTINO then bigInode else fullFile i).type ≠ 0 at h2
  split at h2
  next hi =>
    rw [hi]
    decide
  next hi =>
    by_contra hc
    refine h2 ?_
    rw [fullFile, if_neg (by omega)]
    rfl

theorem fullImage_alloc (h1 : 1 ≤ i) (h2 : i < 66) :
    fullImage.Live mkfsSb i ∧ (fullImage.ino i).nlink ≠ 0 := by
  have hn : i < mkfsSb.ninodes := Nat.lt_trans h2 (by decide)
  unfold Disk.Live
  show (_ ∧ (if i = ROOTINO then bigInode else fullFile i).type ≠ 0) ∧
    (if i = ROOTINO then bigInode else fullFile i).nlink ≠ 0
  split
  · exact ⟨⟨hn, by decide⟩, by decide⟩
  next hi =>
    dsimp only [ROOTINO] at hi
    rw [fullFile, if_pos (by omega)]
    refine ⟨⟨hn, (by decide : T_FILE ≠ 0)⟩, ?_⟩
    show (if i < 64 then 69 else 68 : BitVec 16) ≠ 0
    split <;> decide

theorem fullImage_dirent (hk : k < fullImage.entries ROOTINO) :
    fullImage.dirent mkfsSb ROOTINO k = ⟨fullInum k, strncpy (fullName k)⟩ := by
  have h : fullImage.dirent mkfsSb ROOTINO k = ⟨fullInum k % 65536, strncpy (fullName k)⟩ :=
    bigDir_dirent fullFile_addrs hk
  have hlt : fullInum k < 65536 := by
    unfold fullInum
    split
    · decide
    · omega
  rwa [Nat.mod_eq_of_lt hlt] at h

/-- Every entry names an allocated inode. -/
theorem fullImage_noDangle : fullImage.NoDangle mkfsSb := by
  intro i hl hd k hk _
  have hi : i = ROOTINO := by
    by_contra hne
    change (if i = ROOTINO then bigInode else fullFile i).type = T_DIR at hd
    rw [if_neg hne] at hd
    unfold fullFile at hd
    split at hd
    · exact absurd hd (by decide : T_FILE ≠ T_DIR)
    · exact absurd hd (by decide : (0 : BitVec 16) ≠ T_DIR)
  subst hi
  rw [fullImage_dirent hk]
  show fullImage.Live mkfsSb (fullInum k)
  unfold fullInum
  split
  · exact bigDir_root
  · exact (fullImage_alloc (by omega) (by omega)).1

/-! ## Runs -/

section
variable (sb) (dev : Devsw)

/-- Calls one after another; `none` if one of them does not complete. -/
def runs : List (Pid × Act) → State → Option State
  | [], s => some s
  | (p, a) :: l, s =>
    if (s.proc p).cwd = none then none
    else match exec sb dev p a s with
      | .ok (_, s') => runs l s'
      | .error _ => none

/-- A console that is always at the end of its input. -/
def nullDev : Devsw := ⟨fun _ _ => some [], fun _ src => some src.length⟩

end

theorem step_of_exec {dev : Devsw} {p : Pid} {a : Act} {s s' : State} {r : Option Nat}
    (hp : (s.proc p).cwd ≠ none) (hr : exec sb dev p a s = .ok (r, s')) :
    (machine sb dev image).step s (p, a) s' := ⟨hp, r, hr⟩

theorem reach_runs {dev : Devsw} {l : List (Pid × Act)} {s s' : State}
    (hs : (machine sb dev image).Reach s) (h : runs sb dev l s = some s') :
    (machine sb dev image).Reach s' := by
  induction l generalizing s with
  | nil =>
    cases h
    exact hs
  | cons x l ih =>
    obtain ⟨p, a⟩ := x
    rw [runs] at h
    split at h
    · cases h
    next hp =>
      split at h
      next r s₁ hr => exact ih (.step hs (step_of_exec hp hr)) h
      · cases h

/-- A call whose result has been looked at. -/
theorem exists_exec (sb : Superblock) (dev : Devsw) (p : Pid) (a : Act) {s : State}
    {P : State → Bool}
    (h : (match exec sb dev p a s with | .ok (_, s') => P s' | .error _ => false) = true) :
    ∃ r s', exec sb dev p a s = .ok (r, s') ∧ P s' = true := by
  split at h
  next r s' hr => exact ⟨r, s', hr, h⟩
  · cases h

/-- How a call ends that does not complete. -/
def panics (sb : Superblock) (dev : Devsw) (p : Pid) (a : Act) (s : State) : Option Panic :=
  match exec sb dev p a s with
  | .ok _ => none
  | .error e => some e

theorem exec_of_panics {dev : Devsw} {p : Pid} {a : Act} {s : State} {e : Panic}
    (h : panics sb dev p a s = some e) : exec sb dev p a s = .error e := by
  unfold panics at h
  split at h
  · cases h
  next e' he =>
    cases h
    exact he

/-- A run whose last state has been looked at. -/
theorem exists_reach (sb : Superblock) (dev : Devsw) {l : List (Pid × Act)} {P : State → Bool}
    (hD : image D) (h : (runs sb dev l (boot D)).any P = true) :
    ∃ s, (machine sb dev image).Reach s ∧ P s = true := by
  cases hs : runs sb dev l (boot D) with
  | none =>
    rw [hs] at h
    cases h
  | some s =>
    rw [hs] at h
    exact ⟨s, reach_runs (.init ⟨D, hD, rfl⟩) hs, h⟩

end Xv6.Fs
