import Xv6.Fs.Dirs
import Xv6.Fs.Tree

/-!
# The disk as a naming tree

`Disk.tree` forgets the blocks.  Each store to the disk is an operation of the tree:
a link count, an entry, an inode that is new or freed, or nothing at all.
-/

namespace Xv6.Fs

variable {sb : Superblock} {D D' : Disk} {i : Nat}

def Disk.tree (D : Disk) (sb : Superblock) : Tree where
  type i := if i < sb.ninodes then (D.ino i).type else 0
  nlink i := if D.Live sb i then (D.ino i).nlink else 0
  ent d k := if D.Live sb d ∧ (D.ino d).type = T_DIR ∧ k < D.entries d then D.dirent sb d k
    else ⟨0, []⟩

namespace Disk

theorem tree_type (h : D.Live sb i) : (D.tree sb).type i = (D.ino i).type := if_pos h.1

theorem tree_nlink (h : D.Live sb i) : (D.tree sb).nlink i = (D.ino i).nlink := if_pos h

theorem tree_live : (D.tree sb).type i ≠ 0 ↔ D.Live sb i := by
  change (if i < sb.ninodes then (D.ino i).type else 0) ≠ 0 ↔ _
  unfold Live
  split
  next h => exact ⟨fun h0 => ⟨h, h0⟩, fun h0 => h0.2⟩
  next h => exact ⟨fun h0 => absurd rfl h0, fun h0 => absurd h0.1 h⟩

theorem tree_dir : (D.tree sb).type i = T_DIR ↔ D.Live sb i ∧ (D.ino i).type = T_DIR := by
  refine ⟨fun h => ?_, fun h => (tree_type h.1).trans h.2⟩
  have hl : D.Live sb i := tree_live.mp (by rw [h]; decide)
  exact ⟨hl, (tree_type hl).symm.trans h⟩

theorem tree_ent {d k : Nat} (hd : D.Live sb d) (ht : (D.ino d).type = T_DIR)
    (hk : k < D.entries d) : (D.tree sb).ent d k = D.dirent sb d k := if_pos ⟨hd, ht, hk⟩

theorem tree_ent_ne {d k : Nat} (h : ((D.tree sb).ent d k).inum ≠ 0) :
    D.Live sb d ∧ (D.ino d).type = T_DIR ∧ k < D.entries d := by
  by_contra hc
  exact h (congrArg Dirent.inum (if_neg hc))

/-- The tree of a disk that differs in one inode. -/
theorem tree_other {j : Nat} (hi : ∀ j, j ≠ i → D'.ino j = D.ino j)
    (hd : ∀ j o, j ≠ i → D'.data sb j o = D.data sb j o) (hj : j ≠ i) :
    (D'.tree sb).type j = (D.tree sb).type j ∧ (D'.tree sb).nlink j = (D.tree sb).nlink j ∧
      (D'.tree sb).ent j = (D.tree sb).ent j := by
  have hent : ∀ k, D'.dirent sb j k = D.dirent sb j k :=
    fun k => dirent_congr fun o _ _ => hd j o hj
  have hlive : D'.Live sb j ↔ D.Live sb j := live_congr (by rw [hi j hj])
  refine ⟨?_, ?_, funext fun k => ?_⟩
  · change (if _ then _ else _ : BitVec 16) = if _ then _ else _
    rw [hi j hj]
  · change (if _ then _ else _ : BitVec 16) = if _ then _ else _
    simp only [hlive, hi j hj]
  · change (if _ then _ else _ : Dirent) = if _ then _ else _
    have hE : D'.entries j = D.entries j := by rw [entries, entries, hi j hj]
    simp only [hlive, hi j hj, hE, hent]

/-- It is the tree `v` if it agrees with it on this inode. -/
theorem tree_eq {i : Nat} {v : Tree} (hi : ∀ j, j ≠ i → D'.ino j = D.ino j)
    (hd : ∀ j o, j ≠ i → D'.data sb j o = D.data sb j o)
    (hv : ∀ j, j ≠ i → v.type j = (D.tree sb).type j ∧ v.nlink j = (D.tree sb).nlink j ∧
      v.ent j = (D.tree sb).ent j)
    (ht : (D'.tree sb).type i = v.type i) (hn : (D'.tree sb).nlink i = v.nlink i)
    (he : ∀ k, (D'.tree sb).ent i k = v.ent i k) : D'.tree sb = v := by
  have h := fun j hj => tree_other (j := j) hi hd hj
  apply Tree.ext
  · funext j
    by_cases hj : j = i
    · rw [hj, ht]
    · rw [(h j hj).1, (hv j hj).1]
  · funext j
    by_cases hj : j = i
    · rw [hj, hn]
    · rw [(h j hj).2.1, (hv j hj).2.1]
  · funext j
    by_cases hj : j = i
    · rw [hj]
      exact funext he
    · rw [(h j hj).2.2, (hv j hj).2.2]

/-! ## Stores -/

theorem tree_setMeta {d : Dinode} (hl : D.Live sb i) (ht : d.type = (D.ino i).type)
    (ha : d.addrs = (D.ino i).addrs) (hs : d.size = (D.ino i).size) :
    (D.setIno i d).tree sb = (D.tree sb).setLink i d.nlink := by
  have hp : ∀ r, (D.setIno i d).ptr sb r = D.ptr sb r := ptr_setMeta ht ha
  have hdata := data_of_ptr hp (rfl : (D.setIno i d).blk = D.blk)
  have hli : (D.setIno i d).Live sb i := (live_setIno ht i).mpr hl
  refine tree_eq (i := i) (fun j hj => setIno_of_ne _ _ hj) (fun j o _ => hdata j o)
    (fun j hj => ⟨rfl, if_neg hj, rfl⟩) ?_ ?_ fun k => ?_
  · change _ = (D.tree sb).type i
    rw [tree_type hli, tree_type hl, setIno_self, ht]
  · rw [tree_nlink hli, setIno_self]
    exact (if_pos rfl).symm
  · have hent : (D.setIno i d).dirent sb i k = D.dirent sb i k :=
      dirent_congr fun o _ _ => hdata i o
    change (if _ then _ else _ : Dirent) = if _ then _ else _
    simp only [hli, hl, hent, entries, setIno_self, ht, hs]

theorem tree_fresh {t : BitVec 16} (hl : ¬ D.Live sb i) (hi : i < sb.ninodes) :
    (D.setIno i (.fresh t)).tree sb = (D.tree sb).reset i t := by
  have hp := fun r => ptr_fresh (t := t) hl r
  refine tree_eq (i := i) (fun j hj => setIno_of_ne _ _ hj) (fun j o _ => data_of_ptr hp rfl j o)
    (fun j hj => ⟨if_neg hj, if_neg hj, funext fun _ => if_neg hj⟩) ?_ ?_ fun k => ?_
  · refine (if_pos hi).trans ?_
    rw [setIno_self]
    exact (if_pos rfl).symm
  · refine Eq.trans ?_ (if_pos rfl).symm
    change (if _ then _ else _ : BitVec 16) = 0
    rw [setIno_self]
    split <;> rfl
  · refine (if_neg fun hc => ?_).trans (if_pos rfl).symm
    have hk := hc.2.2
    unfold entries at hk
    rw [setIno_self] at hk
    exact absurd hk (by simp [Dinode.fresh])

theorem tree_freed (h : Freed sb i D D') : D'.tree sb = (D.tree sb).reset i 0 := by
  have hdead : ¬ D'.Live sb i := fun hl => hl.2 h.self
  refine tree_eq (i := i) h.other (fun j o hj => Disk.data_of_ino (h.other j hj) h.blk o)
    (fun j hj => ⟨if_neg hj, if_neg hj, funext fun _ => if_neg hj⟩) ?_ ?_ fun k => ?_
  · refine Eq.trans ?_ (if_pos rfl).symm
    exact not_not.mp fun hc => hdead (tree_live.mp hc)
  · exact (if_neg hdead).trans (if_pos rfl).symm
  · exact (if_neg fun hc => hdead hc.1).trans (if_pos rfl).symm

/-- The contents of a file are not in the tree. -/
theorem tree_wrote_file {off : Nat} {src : List UInt8} (h : Wrote sb i off src D D')
    (hi : (D.ino i).type ≠ T_DIR) : D'.tree sb = D.tree sb := by
  refine tree_eq (i := i) h.other (fun j o hj => ?_) (fun _ _ => ⟨rfl, rfl, rfl⟩) ?_ ?_ fun k => ?_
  · rw [h.data, if_neg fun hc => hj hc.1]
  · change (if _ then _ else _ : BitVec 16) = if _ then _ else _
    rw [h.type_eq]
  · change (if _ then _ else _ : BitVec 16) = if _ then _ else _
    simp only [h.nlink_eq, h.live]
  · exact (if_neg fun hc => hi ((h.type_eq i).symm.trans hc.2.1)).trans
      (if_neg fun hc => hi hc.2.1).symm

theorem tree_wrote_dir {k₀ : Nat} {src : List UInt8} (h : Wrote sb i (DESIZE * k₀) src D D')
    (hl : D.Live sb i) (ht : (D.ino i).type = T_DIR) (hs : src.length = DESIZE)
    (hk₀ : k₀ ≤ D.entries i) : D'.tree sb = (D.tree sb).setEnt i k₀ (.decode src) := by
  have hl' := (h.live i).mpr hl
  have ht' := (h.type_eq i).trans ht
  refine tree_eq (i := i) h.other (fun j o hj => ?_)
    (fun j hj => ⟨rfl, rfl, funext fun _ => if_neg fun hc => hj hc.1⟩) ?_ ?_ fun k => ?_
  · rw [h.data, if_neg fun hc => hj hc.1]
  · change _ = (D.tree sb).type i
    rw [tree_type hl', tree_type hl, h.type_eq]
  · change _ = (D.tree sb).nlink i
    rw [tree_nlink hl', tree_nlink hl, h.nlink_eq]
  · change (if _ then _ else _ : Dirent) = if _ then _ else _
    rw [h.dirent rfl hs, h.entries rfl hs]
    by_cases hk : k = k₀
    · rw [if_pos ⟨hl', ht', by omega⟩, if_pos hk, if_pos ⟨rfl, hk⟩]
    · have hne : ¬ (i = i ∧ k = k₀) := fun hc => hk hc.2
      rw [if_neg hk, if_neg hne]
      change _ = if _ then _ else _
      have hiff : k < max (D.entries i) (k₀ + 1) ↔ k < D.entries i := by omega
      simp only [hl, hl', ht, ht', hiff]

/-! ## Searches -/

theorem lookup_some {j : Nat} {name : List UInt8} (hl : D.Live sb i) (ht : (D.ino i).type = T_DIR)
    (h : D.lookup sb i name = some j) :
    (D.tree sb).ent i j = D.dirent sb i j ∧ (D.dirent sb i j).inum ≠ 0 ∧
      cname (D.dirent sb i j).name = cname name := by
  obtain ⟨hj, htest⟩ := search_some h
  simp only [ne_eq, namecmp, decide_eq_true_eq] at htest
  exact ⟨tree_ent hl ht hj, htest.1, htest.2.symm⟩

theorem lookup_none {name : List UInt8} (h : D.lookup sb i name = none) (j : Nat)
    (hj : ((D.tree sb).ent i j).inum ≠ 0) : cname ((D.tree sb).ent i j).name ≠ cname name := by
  obtain ⟨hl, ht, hk⟩ := tree_ent_ne hj
  have := search_none h (Nat.zero_le j) hk
  rw [tree_ent hl ht hk] at hj ⊢
  simp only [ne_eq, hj, not_false_eq_true, namecmp, true_and, decide_eq_false_iff_not] at this
  exact fun hc => this (by simpa using hc.symm)

theorem freeEntry_empty (sb : Superblock) (D : Disk) (i : Nat) : ((D.tree sb).ent i (D.freeEntry sb i)).inum = 0 := by
  by_contra hc
  obtain ⟨hl, ht, hk⟩ := tree_ent_ne hc
  rw [tree_ent hl ht hk] at hc
  exact hc (freeEntry_inum hk)

theorem search_empty (h : D.search sb i (fun de => de.inum ≠ 0) 2 = none) (j : Nat) (hj : 2 ≤ j) :
    ((D.tree sb).ent i j).inum = 0 := by
  by_contra hc
  obtain ⟨hl, ht, hk⟩ := tree_ent_ne hc
  rw [tree_ent hl ht hk] at hc
  have := search_none h hj hk
  simp [hc] at this

end Disk

/-! ## How many entries there are -/

/-- There are at most as many entries as fit into the data blocks. -/
theorem Ok.refs_le (h : Ok sb D) (hi : i ≠ 0) :
    ((D.tree sb).refs i).Finite ∧ ((D.tree sb).refs i).ncard ≤ 32 * sb.nblocks := by
  have hm := sb.meta_pos
  let R : Finset (Nat × Nat) := Finset.Ico sb.dataStart sb.size ×ˢ Finset.range 32
  let f : Nat × Nat → Nat × Nat := fun x => (D.addr sb x.1 (x.2 / 32), x.2 % 32)
  have hin : ∀ x ∈ (D.tree sb).refs i, D.addr sb x.1 (x.2 / 32) ≠ 0 := by
    rintro ⟨d, k⟩ ⟨_, _, _, he⟩
    obtain ⟨hl, ht, hk⟩ := Disk.tree_ent_ne (by rw [he]; exact hi)
    apply h.nohole d hl
    unfold Disk.entries at hk
    dsimp only [BSIZE, DESIZE] at *
    omega
  have hmap : Set.MapsTo f ((D.tree sb).refs i) R := by
    intro x hx
    obtain ⟨r, -, hr⟩ := Disk.place_of_addr (hin x hx)
    have := h.range r (by rw [hr]; exact hin x hx)
    rw [hr] at this
    simp only [R, f, Finset.coe_product, Finset.coe_Ico, Finset.coe_range, Set.mem_prod,
      Set.mem_Ico, Set.mem_Iio]
    exact ⟨this, Nat.mod_lt _ (by decide)⟩
  have hinj : Set.InjOn f ((D.tree sb).refs i) := by
    intro x hx y hy hxy
    obtain ⟨h1, h2⟩ := Prod.mk.inj hxy
    obtain ⟨h3, h4⟩ := h.toOwned.addr_inj (hin x hx) h1
    refine Prod.ext h3 ?_
    omega
  have hcard : (R : Set (Nat × Nat)).ncard = 32 * sb.nblocks := by
    rw [Set.ncard_coe_finset, Finset.card_product, Nat.card_Ico, Finset.card_range]
    unfold Superblock.dataStart
    omega
  refine ⟨Set.Finite.of_injOn hmap hinj R.finite_toSet, ?_⟩
  rw [← hcard]
  exact Set.ncard_le_ncard_of_injOn f hmap hinj R.finite_toSet

end Xv6.Fs
