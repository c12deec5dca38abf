import Xv6.Fs.Model
import Xv6.Fs.Blocks

/-!
# The invariant of the file system

`Ok` is what holds of the disk: block ownership, no holes below a file's size, and
directories made of entries whose inode numbers exist.  `Good` ties the inode cache to
it.  The references to the cache are counted in two parts: `P t` are the open files and
current directories on entry `t`, and `T` lists those the running call holds.

With `strict` the invariant also has `Sound`: no entry dangles, and an inode without
links is a file or directory that somebody has open.  Then nothing is freed on the way
through a path.
-/

namespace Xv6.Fs

open List

/-- A well-formed disk. -/
structure Ok (sb : Superblock) (D : Disk) : Prop extends Owned sb D where
  nohole : ∀ i, D.Live sb i → ∀ n, n * BSIZE < (D.ino i).size → D.addr sb i n ≠ 0
  dirsize : ∀ i, D.Live sb i → (D.ino i).type = T_DIR → (D.ino i).size % DESIZE = 0
  dirents : ∀ i, D.Live sb i → (D.ino i).type = T_DIR → ∀ k < D.entries i,
    (D.dirent sb i k).inum < sb.ninodes

variable {sb : Superblock} {D D' : Disk}

theorem dirent_congr {i k : Nat}
    (h : ∀ o, DESIZE * k ≤ o → o < DESIZE * k + DESIZE → D'.data sb i o = D.data sb i o) :
    D'.dirent sb i k = D.dirent sb i k := by
  unfold Disk.dirent Disk.bytes
  congr 1
  refine map_congr_left fun x hx => h _ (by omega) ?_
  have := mem_range.mp hx
  omega

/-! ## What keeps the disk well formed -/

/-- The disk may differ in one inode `i`; the others and their contents are the same. -/
theorem Ok.of_one (h : Ok sb D) (i : Nat) (ho : Owned sb D')
    (hi : ∀ j, j ≠ i → D'.ino j = D.ino j)
    (ha : ∀ j n, j ≠ i → D.addr sb j n ≠ 0 → D'.addr sb j n ≠ 0)
    (hd : ∀ j o, j ≠ i → D'.data sb j o = D.data sb j o)
    (hn : D'.Live sb i → ∀ n, n * BSIZE < (D'.ino i).size → D'.addr sb i n ≠ 0)
    (hs : D'.Live sb i → (D'.ino i).type = T_DIR → (D'.ino i).size % DESIZE = 0)
    (he : D'.Live sb i → (D'.ino i).type = T_DIR → ∀ k < D'.entries i,
      (D'.dirent sb i k).inum < sb.ninodes) : Ok sb D' := by
  have hlive : ∀ j, j ≠ i → D'.Live sb j → D.Live sb j := fun j hj =>
    (Disk.live_congr (by rw [hi j hj])).mp
  refine ⟨ho, fun j hl n hjn => ?_, fun j hl ht => ?_, fun j hl ht k hk => ?_⟩
  · by_cases hj : j = i
    · subst hj
      exact hn hl n hjn
    · rw [hi j hj] at hjn
      exact ha j n hj (h.nohole j (hlive j hj hl) n hjn)
  · by_cases hj : j = i
    · subst hj
      exact hs hl ht
    · rw [hi j hj] at ht ⊢
      exact h.dirsize j (hlive j hj hl) ht
  · by_cases hj : j = i
    · subst hj
      exact he hl ht k hk
    · unfold Disk.entries at hk
      rw [hi j hj] at ht hk
      rw [dirent_congr fun o _ _ => hd j o hj]
      exact h.dirents j (hlive j hj hl) ht k hk

/-- Links, device numbers and the like are not looked at. -/
theorem Ok.setMeta (h : Ok sb D) {i : Nat} {d : Dinode} (ht : d.type = (D.ino i).type)
    (ha : d.addrs = (D.ino i).addrs) (hs : d.size = (D.ino i).size) : Ok sb (D.setIno i d) := by
  have hp : ∀ r, (D.setIno i d).ptr sb r = D.ptr sb r := ptr_setMeta ht ha
  have hl : (D.setIno i d).Live sb i ↔ D.Live sb i := live_setIno ht i
  have haddr := Disk.addr_congr hp
  have hdata := data_of_ptr hp (rfl : (D.setIno i d).blk = D.blk)
  refine h.of_one i (h.toOwned.congr hp rfl) (fun j hj => Disk.setIno_of_ne _ _ hj)
    (fun j n _ hn => by rwa [haddr]) (fun j o _ => hdata j o) ?_ ?_ ?_
  · intro hi n hn
    rw [Disk.setIno_self, hs] at hn
    rw [haddr]
    exact h.nohole i (hl.mp hi) n hn
  · rw [Disk.setIno_self, hs, ht]
    exact fun hi => h.dirsize i (hl.mp hi)
  · intro hi hti k hk
    unfold Disk.entries at hk
    rw [Disk.setIno_self] at hti hk
    rw [hs] at hk
    rw [dirent_congr fun o _ _ => hdata i o]
    exact h.dirents i (hl.mp hi) (ht ▸ hti) k hk

theorem Ok.fresh (h : Ok sb D) {i : Nat} (hi : ¬ D.Live sb i) (t : BitVec 16) :
    Ok sb (D.setIno i (.fresh t)) := by
  have hp := fun r => ptr_fresh (t := t) hi r
  have hz : ((D.setIno i (.fresh t)).ino i).size = 0 := by
    rw [Disk.setIno_self]
    rfl
  refine h.of_one i (h.toOwned.congr hp rfl) (fun j hj => Disk.setIno_of_ne _ _ hj)
    (fun j n _ hn => by rwa [Disk.addr_congr hp]) (fun j o _ => data_of_ptr hp rfl j o) ?_ ?_ ?_
  · intro _ n hn
    omega
  · intro _ _
    rw [hz, Nat.zero_mod]
  · intro _ _ k hk
    unfold Disk.entries at hk
    rw [hz] at hk
    exact absurd hk (Nat.not_lt_zero k)

theorem Ok.freed (h : Ok sb D) {i : Nat} (hf : Freed sb i D D') : Ok sb D' := by
  have hdead : ¬ D'.Live sb i := fun hl => hl.2 hf.self
  refine h.of_one i (hf.owned h.toOwned) hf.other (fun j n hj hn => ?_)
    (fun j o hj => Disk.data_of_ino (hf.other j hj) hf.blk o) (fun hl => absurd hl hdead) (fun hl => absurd hl hdead)
    fun hl => absurd hl hdead
  obtain ⟨r, hr, he⟩ := Disk.place_of_addr hn
  rw [Disk.addr_of_place hr, hf.ptr, if_neg (Disk.place_ino hr ▸ hj), he]
  exact hn

/-- What `writei` leaves: the bytes, and the size if the file has grown. -/
structure Wrote (sb : Superblock) (i off : Nat) (src : List UInt8) (D D' : Disk) : Prop where
  owned : Owned sb D'
  other : ∀ j, j ≠ i → D'.ino j = D.ino j
  self : { D'.ino i with addrs := (D.ino i).addrs, size := (D.ino i).size } = D.ino i
  size : (D'.ino i).size = max (D.ino i).size (off + src.length)
  addr : ∀ j n, D.addr sb j n ≠ 0 → D'.addr sb j n = D.addr sb j n
  mapped : ∀ n, src ≠ [] → off < (n + 1) * BSIZE → n * BSIZE < off + src.length →
    D'.addr sb i n ≠ 0
  data : ∀ j o, D'.data sb j o =
    if j = i ∧ off ≤ o ∧ o < off + src.length then src.getD (o - off) 0 else D.data sb j o

section
variable {i off : Nat} {src : List UInt8}

section
variable (h : Wrote sb i off src D D')
include h

theorem Wrote.type_eq (j : Nat) : (D'.ino j).type = (D.ino j).type := by
  by_cases hj : j = i
  · rw [hj, ← h.self]
  · rw [h.other j hj]

theorem Wrote.nlink_eq (j : Nat) : (D'.ino j).nlink = (D.ino j).nlink := by
  by_cases hj : j = i
  · rw [hj, ← h.self]
  · rw [h.other j hj]

theorem Wrote.live (j : Nat) : D'.Live sb j ↔ D.Live sb j :=
  Disk.live_congr (h.type_eq j)

/-- One entry of a directory is written. -/
theorem Wrote.dirent {k₀ : Nat} (ho : off = DESIZE * k₀) (hl : src.length = DESIZE) (k : Nat) :
    D'.dirent sb i k = if k = k₀ then .decode src else D.dirent sb i k := by
  by_cases hk : k = k₀
  · subst hk
    rw [if_pos rfl]
    unfold Disk.dirent Disk.bytes
    congr 1
    refine ext_getElem (by simp [hl]) fun x hx hx' => ?_
    simp only [length_map, length_range] at hx
    rw [getElem_map, getElem_range, h.data, if_pos (by omega),
      show DESIZE * k + x - off = x by omega]
    simp [hx']
  · rw [if_neg hk]
    refine dirent_congr fun o h1 h2 => ?_
    rw [h.data, if_neg]
    dsimp only [DESIZE] at *
    omega

theorem Wrote.entries {k₀ : Nat} (ho : off = DESIZE * k₀)
    (hl : src.length = DESIZE) : D'.entries i = max (D.entries i) (k₀ + 1) := by
  unfold Disk.entries
  rw [h.size, hl, ho]
  dsimp only [DESIZE]
  omega

end

/-- A file takes any bytes, a directory takes whole entries whose inode number exists. -/
theorem Ok.wrote (h : Ok sb D) (hw : Wrote sb i off src D D') (ho : off ≤ (D.ino i).size)
    (hd : (D.ino i).type = T_DIR → off % DESIZE = 0 ∧ src.length = DESIZE ∧
      (Dirent.decode src).inum < sb.ninodes) : Ok sb D' := by
  refine h.of_one i hw.owned hw.other (fun j n _ hn => by rwa [hw.addr j n hn])
    (fun j o hj => by rw [hw.data, if_neg fun hc => hj hc.1]) ?_ ?_ ?_
  · intro hl n hn
    by_cases hold : n * BSIZE < (D.ino i).size
    · have := h.nohole i ((hw.live i).mp hl) n hold
      rwa [hw.addr i n this]
    · rw [hw.size] at hn
      have hlt : n * BSIZE < off + src.length := by omega
      refine hw.mapped n ?_ (by dsimp only [BSIZE] at *; omega) hlt
      rintro rfl
      simp only [length_nil] at hlt
      omega
  · intro hl ht
    rw [hw.type_eq] at ht
    have h0 := h.dirsize i ((hw.live i).mp hl) ht
    obtain ⟨h1, h2, -⟩ := hd ht
    rw [hw.size, h2]
    dsimp only [DESIZE] at *
    omega
  · intro hl ht k hk
    rw [hw.type_eq] at ht
    obtain ⟨h1, h2, h3⟩ := hd ht
    have hoff : off = DESIZE * (off / DESIZE) := by
      dsimp only [DESIZE] at *
      omega
    rw [hw.dirent hoff h2]
    split
    · exact h3
    next hne =>
      refine h.dirents i ((hw.live i).mp hl) ht k ?_
      rw [hw.entries hoff h2] at hk
      have h0 := h.dirsize i ((hw.live i).mp hl) ht
      unfold Disk.entries at *
      dsimp only [DESIZE] at *
      omega

end

/-! ## Directories that stay as they are -/

/-- Inode `j` has the same type, size and entries. -/
structure SameDir (sb : Superblock) (D D' : Disk) (j : Nat) : Prop where
  type : (D'.ino j).type = (D.ino j).type
  size : (D'.ino j).size = (D.ino j).size
  dirent : ∀ k, D'.dirent sb j k = D.dirent sb j k

namespace SameDir

variable {D'' : Disk} {i j : Nat}

theorem refl : SameDir sb D D j := ⟨rfl, rfl, fun _ => rfl⟩

theorem trans (h : SameDir sb D D' j) (h' : SameDir sb D' D'' j) : SameDir sb D D'' j :=
  ⟨h'.type.trans h.type, h'.size.trans h.size, fun k => (h'.dirent k).trans (h.dirent k)⟩

theorem live (h : SameDir sb D D' j) : D'.Live sb j ↔ D.Live sb j := Disk.live_congr h.type

theorem entries (h : SameDir sb D D' j) : D'.entries j = D.entries j := by
  unfold Disk.entries
  rw [h.size]

theorem of_data (hi : D'.ino j = D.ino j) (hd : ∀ o, D'.data sb j o = D.data sb j o) :
    SameDir sb D D' j :=
  ⟨by rw [hi], by rw [hi], fun _ => dirent_congr fun o _ _ => hd o⟩

theorem setMeta {d : Dinode} (ht : d.type = (D.ino i).type) (ha : d.addrs = (D.ino i).addrs)
    (hs : d.size = (D.ino i).size) (j : Nat) : SameDir sb D (D.setIno i d) j := by
  have hp : ∀ r, (D.setIno i d).ptr sb r = D.ptr sb r := ptr_setMeta ht ha
  by_cases hj : j = i
  · subst hj
    refine ⟨?_, ?_, fun _ => dirent_congr fun o _ _ => data_of_ptr hp rfl j o⟩
    · rw [Disk.setIno_self, ht]
    · rw [Disk.setIno_self, hs]
  · exact of_data (Disk.setIno_of_ne _ _ hj) (data_of_ptr hp rfl j)

theorem fresh (hl : ¬ D.Live sb i) (t : BitVec 16) (hj : j ≠ i) :
    SameDir sb D (D.setIno i (.fresh t)) j :=
  of_data (Disk.setIno_of_ne _ _ hj) (data_of_ptr (ptr_fresh hl) rfl j)

theorem freed (hf : Freed sb i D D') (hj : j ≠ i) : SameDir sb D D' j :=
  of_data (hf.other j hj) (Disk.data_of_ino (hf.other j hj) hf.blk)

theorem wrote {off : Nat} {src : List UInt8} (hw : Wrote sb i off src D D') (hj : j ≠ i) :
    SameDir sb D D' j :=
  of_data (hw.other j hj) fun o => by rw [hw.data, if_neg fun hc => hj hc.1]

end SameDir

/-- There is no new inode, and no directory has changed. -/
def Within (sb : Superblock) (D D' : Disk) : Prop := ∀ j, D'.Live sb j → SameDir sb D D' j

theorem Within.of_eq (h : D' = D) : Within sb D D' := fun _ _ => h ▸ .refl

theorem Within.trans {D'' : Disk} (h : Within sb D D') (h' : Within sb D' D'') :
    Within sb D D'' :=
  fun j hj => (h j ((h' j hj).live.1 hj)).trans (h' j hj)

end Xv6.Fs
