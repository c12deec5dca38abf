import Xv6.Fs.Disk

/-!
# The disk in blocks (`fs.h`, and the stores of `fs.c`)

The inodes and the free map are stored in blocks: `IPB` inodes to an inode block,
`BPB` bits to a block of the map.  `Layout.Holds R D` says that the blocks `R` hold
the disk `D`.  `iupdate`, `balloc`, `bfree` and a write to a data block store bytes;
`Holds` is kept when the disk is changed in the one inode, bit or block
(`Holds.iupdate`, `Holds.mark`, `Holds.write`).
-/

namespace Xv6.Fs

open Function

/-- Inodes in a block, with `sizeof(struct dinode) = 64`. -/
abbrev IPB : Nat := BSIZE / 64
/-- Bits in a block of the free map. -/
abbrev BPB : Nat := BSIZE * 8

/-! ## `struct dinode` -/

namespace Dinode

/-- The values are those of C types. -/
def Fits (d : Dinode) : Prop := d.size < 2 ^ 32 ∧ ∀ k, d.addrs k < 2 ^ 32

/-- The `short`s, in order. -/
def half (d : Dinode) : Nat → BitVec 16
  | 0 => d.type
  | 1 => d.major
  | 2 => d.minor
  | 3 => d.nlink
  | 4 => d.uid
  | _ => d.gid

/-- The `uint`s, in order. -/
def word (d : Dinode) : Nat → Nat
  | 0 => d.mode.toNat
  | 1 => d.size
  | k + 2 => if h : k < NDIRECT + 1 then d.addrs ⟨k, h⟩ else 0

/-- Byte `j` of the structure. -/
def byte (d : Dinode) (j : Nat) : UInt8 :=
  if j < 12 then UInt8.ofNat ((d.half (j / 2)).toNat / 256 ^ (j % 2))
  else UInt8.ofNat (d.word (j / 4 - 3) / 256 ^ (j % 4))

end Dinode

variable {d : Dinode}

namespace Bytes

/-- `((ushort*)data)[j]` -/
def short (v : Bytes) (j : Nat) : Nat := (v (2 * j)).toNat + 256 * (v (2 * j + 1)).toNat

/-- The `k`-th inode of a block. -/
def dinode (v : Bytes) (k : Nat) : Dinode where
  type := BitVec.ofNat 16 (v.short (32 * k))
  major := BitVec.ofNat 16 (v.short (32 * k + 1))
  minor := BitVec.ofNat 16 (v.short (32 * k + 2))
  nlink := BitVec.ofNat 16 (v.short (32 * k + 3))
  uid := BitVec.ofNat 16 (v.short (32 * k + 4))
  gid := BitVec.ofNat 16 (v.short (32 * k + 5))
  mode := BitVec.ofNat 32 (v.word (16 * k + 3))
  size := v.word (16 * k + 4)
  addrs := fun a => v.word (16 * k + 5 + a)

/-- The stores of `iupdate` through `dip`, which set every byte of the inode. -/
def putDinode (v : Bytes) (k : Nat) (d : Dinode) : Bytes := fun o =>
  if o / 64 = k then d.byte (o % 64) else v o

theorem short_putDinode (v : Bytes) {k : Nat} (d : Dinode) {j : Nat} (hj : j < 6) :
    BitVec.ofNat 16 ((v.putDinode k d).short (32 * k + j)) = d.half j := by
  have h0 : 2 * (32 * k + j) / 64 = k ∧ 2 * (32 * k + j) % 64 = 2 * j := by omega
  have h1 : (2 * (32 * k + j) + 1) / 64 = k ∧ (2 * (32 * k + j) + 1) % 64 = 2 * j + 1 := by omega
  have hb : 2 * j < 12 ∧ 2 * j + 1 < 12 := by omega
  have e0 : 2 * j / 2 = j ∧ 2 * j % 2 = 0 := by omega
  have e1 : (2 * j + 1) / 2 = j ∧ (2 * j + 1) % 2 = 1 := by omega
  have hlt := (d.half j).isLt
  apply BitVec.eq_of_toNat_eq
  simp only [short, putDinode, h0, h1, if_true, Dinode.byte, hb, e0, e1, UInt8.toNat_ofNat',
    BitVec.toNat_ofNat, Nat.pow_zero, Nat.pow_one, Nat.div_one]
  omega

theorem word_putDinode (v : Bytes) {k : Nat} (d : Dinode) {j : Nat} (hj : j < 13)
    (hw : d.word j < 2 ^ 32) : (v.putDinode k d).word (16 * k + 3 + j) = d.word j := by
  have hq : ∀ c < 4, (4 * (16 * k + 3 + j) + c) / 64 = k ∧
      (4 * (16 * k + 3 + j) + c) % 64 = 12 + 4 * j + c := by
    intro c hc
    omega
  have he : ∀ c < 4, ¬ 12 + 4 * j + c < 12 ∧ (12 + 4 * j + c) / 4 - 3 = j ∧
      (12 + 4 * j + c) % 4 = c := by
    intro c hc
    omega
  have h0 := hq 0 (by decide)
  have e0 := he 0 (by decide)
  simp only [Nat.add_zero] at h0 e0
  simp only [word, putDinode, Dinode.byte, h0, e0, hq 1 (by decide), he 1 (by decide),
    hq 2 (by decide), he 2 (by decide), hq 3 (by decide), he 3 (by decide), if_true, if_false,
    UInt8.toNat_ofNat']
  omega

theorem dinode_putDinode_self (v : Bytes) (k : Nat) (h : d.Fits) :
    (v.putDinode k d).dinode k = d := by
  have hm := word_putDinode v (k := k) d (j := 0) (by decide) d.mode.isLt
  have hs := word_putDinode v (k := k) d (j := 1) (by decide) h.1
  have ha : ∀ a : Fin (NDIRECT + 1), (v.putDinode k d).word (16 * k + 5 + a) = d.addrs a := by
    intro a
    have hw : d.word (a + 2) = d.addrs a := dif_pos a.isLt
    have := word_putDinode v (k := k) d (j := a + 2)
      (Nat.add_lt_add_right a.isLt 2) (by rw [hw]; exact h.2 a)
    rw [← hw, ← this]
    congr 1
    omega
  have hh := fun {j} (hj : j < 6) => short_putDinode v (k := k) d hj
  obtain ⟨type, major, minor, nlink, uid, gid, mode, size, addrs⟩ := d
  rw [dinode, Dinode.mk.injEq]
  refine ⟨hh (j := 0) (by decide), hh (j := 1) (by decide), hh (j := 2) (by decide),
    hh (j := 3) (by decide), hh (j := 4) (by decide), hh (j := 5) (by decide), ?_, hs, funext ha⟩
  rw [show 16 * k + 3 = 16 * k + 3 + 0 from rfl, hm]
  exact BitVec.ofNat_toNat ..

/-- The other inodes of the block are left alone. -/
theorem dinode_putDinode_of_ne (v : Bytes) {k j : Nat} (d : Dinode) (h : j ≠ k) :
    (v.putDinode k d).dinode j = v.dinode j := by
  have hb : ∀ o, o / 64 = j → (v.putDinode k d) o = v o := fun o ho =>
    if_neg fun hk => h (ho.symm.trans hk)
  have hs : ∀ i < 6, (v.putDinode k d).short (32 * j + i) = v.short (32 * j + i) := by
    intro i hi
    unfold short
    rw [hb _ (by omega), hb _ (by omega)]
  have hw : ∀ i < 13, (v.putDinode k d).word (16 * j + 3 + i) = v.word (16 * j + 3 + i) := by
    intro i hi
    unfold word
    rw [hb _ (by omega), hb _ (by omega), hb _ (by omega), hb _ (by omega)]
  have ha : ∀ a : Fin (NDIRECT + 1),
      (v.putDinode k d).word (16 * j + 5 + a) = v.word (16 * j + 5 + a) := by
    intro a
    rw [show 16 * j + 5 + a.val = 16 * j + 3 + (a + 2) by omega]
    exact hw _ (Nat.add_lt_add_right a.isLt 2)
  unfold dinode
  rw [Dinode.mk.injEq, show (v.putDinode k d).short (32 * j) = _ from hs 0 (by decide),
    show (v.putDinode k d).word (16 * j + 3) = _ from hw 0 (by decide),
    show (v.putDinode k d).word (16 * j + 4) = _ from hw 1 (by decide), hs 1 (by decide),
    hs 2 (by decide), hs 3 (by decide), hs 4 (by decide), hs 5 (by decide)]
  exact ⟨rfl, rfl, rfl, rfl, rfl, rfl, rfl, rfl, funext ha⟩

/-! ## Bits -/

/-- `1 << k%8` -/
def mask (k : Nat) : UInt8 := 1 <<< UInt8.ofNat (k % 8)

/-- `(data[k/8] & m) != 0` -/
def bit (v : Bytes) (k : Nat) : Bool := v (k / 8) &&& mask k ≠ 0

/-- `data[k/8] |= m` of `balloc`, `data[k/8] &= ~m` of `bfree` -/
def putBit (v : Bytes) (k : Nat) (u : Bool) : Bytes :=
  update v (k / 8) (if u then v (k / 8) ||| mask k else v (k / 8) &&& ~~~mask k)

theorem mask_and : ∀ a < 8, ∀ b < 8, mask b ≠ 0 ∧
    mask a &&& mask b = (if b = a then mask b else 0) ∧
    ~~~mask a &&& mask b = if b = a then 0 else mask b := by
  decide

theorem or_and (x y z : UInt8) : (x ||| y) &&& z = (x &&& z) ||| (y &&& z) := by
  apply UInt8.toBitVec_inj.mp
  apply BitVec.eq_of_getLsbD_eq
  intro i _
  simp only [UInt8.toBitVec_and, UInt8.toBitVec_or, BitVec.getLsbD_and, BitVec.getLsbD_or,
    Bool.and_or_distrib_right]

theorem and_or_self (x y : UInt8) : (x &&& y) ||| y = y := by
  apply UInt8.toBitVec_inj.mp
  apply BitVec.eq_of_getLsbD_eq
  intro i _
  simp only [UInt8.toBitVec_and, UInt8.toBitVec_or, BitVec.getLsbD_and, BitVec.getLsbD_or]
  cases y.toBitVec.getLsbD i <;> simp

/-- A bit after another one, or the same, has been set or cleared. -/
theorem mask_put (x : UInt8) {a b : Nat} (ha : a < 8) (hb : b < 8) (u : Bool) :
    decide ((if u then x ||| mask a else x &&& ~~~mask a) &&& mask b ≠ 0) =
      if b = a then u else decide (x &&& mask b ≠ 0) := by
  obtain ⟨h0, hor, hand⟩ := mask_and a ha b hb
  cases u with
  | true =>
    rw [if_pos rfl, or_and, hor]
    by_cases h : b = a
    · rw [if_pos h, if_pos h, and_or_self, decide_eq_true h0]
    · rw [if_neg h, if_neg h, UInt8.or_zero]
  | false =>
    rw [if_neg Bool.false_ne_true, UInt8.and_assoc, hand]
    by_cases h : b = a
    · rw [if_pos h, if_pos h, UInt8.and_zero]
      rfl
    · rw [if_neg h, if_neg h]

theorem mask_mod (k : Nat) : mask (k % 8) = mask k := by
  unfold mask
  rw [Nat.mod_mod]

theorem bit_putBit (v : Bytes) (j k : Nat) (u : Bool) :
    (v.putBit k u).bit j = if j = k then u else v.bit j := by
  unfold bit putBit
  by_cases hq : j / 8 = k / 8
  · have h := mask_put (v (k / 8)) (a := k % 8) (b := j % 8) (by omega) (by omega) u
    rw [mask_mod, mask_mod] at h
    rw [hq, update_self, h]
    exact if_congr (by omega) rfl rfl
  · rw [update_of_ne hq, if_neg fun h => hq (by rw [h])]

end Bytes

/-! ## The areas -/

/-- Where the inode blocks and the free map are: before the data, one after the other. -/
structure Layout (sb : Superblock) where
  inodestart : Nat
  bmapstart : Nat
  inodes : inodestart + sb.ninodes / IPB < bmapstart
  bitmap : bmapstart + sb.size / BPB < sb.dataStart

namespace Layout

variable {sb : Superblock} (L : Layout sb)

/-- `IBLOCK(i, sb)` -/
def iblock (i : Nat) : Nat := i / IPB + L.inodestart

/-- `BBLOCK(b, sb)` -/
def bblock (b : Nat) : Nat := b / BPB + L.bmapstart

/-- Inode `i` as `ilock` reads it. -/
def dinode (R : Nat → Bytes) (i : Nat) : Dinode := (R (L.iblock i)).dinode (i % IPB)

/-- The block stores of `iupdate`, and of `balloc` and `bfree`. -/
def iupdate (R : Nat → Bytes) (i : Nat) (d : Dinode) : Nat → Bytes :=
  update R (L.iblock i) ((R (L.iblock i)).putDinode (i % IPB) d)

def mark (R : Nat → Bytes) (b : Nat) (u : Bool) : Nat → Bytes :=
  update R (L.bblock b) ((R (L.bblock b)).putBit (b % BPB) u)

/-- The blocks `R` hold the disk `D`. -/
structure Holds (R : Nat → Bytes) (D : Disk) : Prop where
  ino : ∀ i < sb.ninodes, L.dinode R i = D.ino i
  bit : ∀ b < sb.size, (R (L.bblock b)).bit (b % BPB) = D.bit b
  blk : ∀ b, sb.dataStart ≤ b → R b = D.blk b

variable {L} {R : Nat → Bytes} {D : Disk}

theorem dinode_iupdate_of_ne (L : Layout sb) (R : Nat → Bytes) {i j : Nat} (d : Dinode)
    (h : j ≠ i) : L.dinode (L.iupdate R i d) j = L.dinode R j := by
  unfold dinode iupdate
  by_cases hb : L.iblock j = L.iblock i
  · rw [hb, update_self]
    refine Bytes.dinode_putDinode_of_ne _ d fun hk => h ?_
    unfold iblock at hb
    dsimp only [IPB, BSIZE] at hb hk
    omega
  · rw [update_of_ne hb]

theorem dinode_iupdate_self (L : Layout sb) (R : Nat → Bytes) (i : Nat)
    (h : d.Fits) : L.dinode (L.iupdate R i d) i = d := by
  unfold dinode iupdate
  rw [update_self, Bytes.dinode_putDinode_self _ _ h]

theorem iblock_lt (L : Layout sb) {i : Nat} (h : i < sb.ninodes) : L.iblock i < L.bmapstart := by
  have := Nat.div_le_div_right (c := IPB) h.le
  have := L.inodes
  unfold iblock
  omega

theorem iblock_data (L : Layout sb) {i : Nat} (h : i < sb.ninodes) :
    L.iblock i < sb.dataStart :=
  (L.iblock_lt h).trans ((Nat.le_add_right ..).trans_lt L.bitmap)

theorem bblock_lt (L : Layout sb) {b : Nat} (h : b < sb.size) : L.bblock b < sb.dataStart := by
  have := Nat.div_le_div_right (c := BPB) h.le
  have := L.bitmap
  unfold bblock
  omega

theorem le_bblock (L : Layout sb) (b : Nat) : L.bmapstart ≤ L.bblock b := Nat.le_add_left ..

namespace Holds

theorem iupdate (h : L.Holds R D) {i : Nat} (hi : i < sb.ninodes) (hd : d.Fits) :
    L.Holds (L.iupdate R i d) (D.setIno i d) where
  ino j hj := by
    by_cases hji : j = i
    · rw [hji, dinode_iupdate_self L R i hd]
      exact (update_self i d D.ino).symm
    · rw [dinode_iupdate_of_ne L R d hji, h.ino j hj]
      exact (update_of_ne hji d D.ino).symm
  bit b hb := by
    have hne : L.bblock b ≠ L.iblock i := ((L.iblock_lt hi).trans_le (L.le_bblock b)).ne'
    rw [Layout.iupdate, update_of_ne hne]
    exact h.bit b hb
  blk b hb := by
    have hne : b ≠ L.iblock i := ((L.iblock_data hi).trans_le hb).ne'
    rw [Layout.iupdate, update_of_ne hne]
    exact h.blk b hb

theorem mark (h : L.Holds R D) {b : Nat} (hb : b < sb.size) (u : Bool) :
    L.Holds (L.mark R b u) (D.setBit b u) where
  ino i hi := by
    have hne : L.iblock i ≠ L.bblock b := ((L.iblock_lt hi).trans_le (L.le_bblock b)).ne
    rw [dinode, Layout.mark, update_of_ne hne]
    exact h.ino i hi
  bit c hc := by
    have hset : (D.setBit b u).bit c = if c = b then u else D.bit c := by
      exact update_apply ..
    rw [hset, Layout.mark]
    by_cases hq : L.bblock c = L.bblock b
    · rw [hq, update_self, Bytes.bit_putBit, ← hq, h.bit c hc]
      unfold bblock at hq
      dsimp only [BPB, BSIZE] at hq ⊢
      exact if_congr (by omega) rfl rfl
    · rw [update_of_ne hq, if_neg fun hcb => hq (by rw [hcb]), h.bit c hc]
  blk c hc := by
    rw [Layout.mark, update_of_ne ((L.bblock_lt hb).trans_le hc).ne']
    exact h.blk c hc

theorem write (h : L.Holds R D) {b : Nat} (hb : sb.dataStart ≤ b) (v : Bytes) :
    L.Holds (update R b v) (D.setBlk b v) where
  ino i hi := by
    rw [dinode, update_of_ne ((L.iblock_data hi).trans_le hb).ne]
    exact h.ino i hi
  bit c hc := by
    rw [update_of_ne ((L.bblock_lt hc).trans_le hb).ne]
    exact h.bit c hc
  blk c hc := by
    rw [update_apply, h.blk c hc]
    exact (update_apply D.blk b v c).symm

end Holds

end Layout

end Xv6.Fs
