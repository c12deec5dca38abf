import Xv6.Param

/-!
# The disk as the file system reads it (`fs.h`)

Through the log the disk is the free map, the inodes and the blocks.  The three
areas are kept apart: bit `b` of the free map, inode `i` of the inode area, block
`b` of the disk.  A block number that a file holds is read and written in the
blocks only, so the model is the code's as long as those numbers are data blocks
(`Owned` says that they are).

`ptr` lists the places where an inode holds a block number, `addr` is `bmap`'s
arithmetic without the allocation, and `data` the bytes of a file.
-/

namespace Xv6.Fs

open Function List

abbrev BSIZE : Nat := 512
abbrev NDIRECT : Nat := 10
abbrev NINDIRECT : Nat := 128
abbrev MAXFILE : Nat := NDIRECT + NINDIRECT
abbrev ROOTINO : Nat := 1
abbrev DIRSIZ : Nat := 14
/-- `sizeof(struct dirent)` -/
abbrev DESIZE : Nat := 16

/-! ## Blocks of bytes -/

/-- The bytes of a block; those from `BSIZE` on mean nothing. -/
abbrev Bytes := Nat → UInt8

namespace Bytes

/-- `((uint*)data)[j]` -/
def word (v : Bytes) (j : Nat) : Nat :=
  (v (4 * j)).toNat + 256 * (v (4 * j + 1)).toNat + 65536 * (v (4 * j + 2)).toNat
    + 16777216 * (v (4 * j + 3)).toNat

/-- `((uint*)data)[j] = w` -/
def putWord (v : Bytes) (j w : Nat) : Bytes := fun k =>
  if k / 4 = j then UInt8.ofNat (w / 256 ^ (k % 4)) else v k

/-- `memmove(data + o, src, n)` -/
def memmove (v : Bytes) (o : Nat) (src : List UInt8) : Bytes := fun k =>
  if o ≤ k ∧ k < o + src.length then src.getD (k - o) 0 else v k

@[simp] theorem word_zero (j : Nat) : word (fun _ => 0) j = 0 := by
  simp [word]

theorem word_putWord_self (v : Bytes) (j : Nat) {w : Nat} (hw : w < 2 ^ 32) :
    (v.putWord j w).word j = w := by
  have h0 : 4 * j / 4 = j ∧ 4 * j % 4 = 0 := by omega
  have h1 : (4 * j + 1) / 4 = j ∧ (4 * j + 1) % 4 = 1 := by omega
  have h2 : (4 * j + 2) / 4 = j ∧ (4 * j + 2) % 4 = 2 := by omega
  have h3 : (4 * j + 3) / 4 = j ∧ (4 * j + 3) % 4 = 3 := by omega
  simp only [word, putWord, h0, h1, h2, h3, if_true, UInt8.toNat_ofNat']
  omega

theorem word_putWord_of_ne (v : Bytes) {j k : Nat} (w : Nat) (h : k ≠ j) :
    (v.putWord j w).word k = v.word k := by
  have h0 : 4 * k / 4 ≠ j := by omega
  have h1 : (4 * k + 1) / 4 ≠ j := by omega
  have h2 : (4 * k + 2) / 4 ≠ j := by omega
  have h3 : (4 * k + 3) / 4 ≠ j := by omega
  simp only [word, putWord, h0, h1, h2, h3, if_false]

end Bytes

/-! ## Inodes -/

abbrev T_DIR : BitVec 16 := 1
abbrev T_FILE : BitVec 16 := 2
abbrev T_DEV : BitVec 16 := 3

/-- `struct dinode`.  `addrs` has the `NDIRECT` direct slots and the indirect one. -/
structure Dinode where
  type : BitVec 16
  major : BitVec 16
  minor : BitVec 16
  nlink : BitVec 16
  uid : BitVec 16
  gid : BitVec 16
  mode : BitVec 32
  size : Nat
  addrs : Fin (NDIRECT + 1) → Nat

/-- What `ialloc` writes: `memset` to zero, then the type and the defaults of `param.h`. -/
def Dinode.fresh (type : BitVec 16) : Dinode where
  type := type
  major := 0
  minor := 0
  nlink := 0
  uid := 0
  gid := 0
  mode := 0o755
  size := 0
  addrs := fun _ => 0

/-- `ip->addrs[k] = b` -/
def Dinode.setAddr (d : Dinode) (k : Fin (NDIRECT + 1)) (b : Nat) : Dinode :=
  { d with addrs := update d.addrs k b }

/-- The slot of the indirect block. -/
abbrev indSlot : Fin (NDIRECT + 1) := Fin.last NDIRECT

/-! ## The superblock and the disk -/

/-- The superblock's geometry.  There are metadata blocks before the data blocks, block numbers
fit in a `uint`, and the root is one of the inodes. -/
structure Superblock where
  size : Nat
  nblocks : Nat
  ninodes : Nat
  meta_pos : nblocks < size
  fits : size < 2 ^ 32
  root : ROOTINO < ninodes

/-- `nmeta` of `mkfs`: the first data block. -/
def Superblock.dataStart (sb : Superblock) : Nat := sb.size - sb.nblocks

structure Disk where
  /-- the free map; `true` is in use -/
  bit : Nat → Bool
  ino : Nat → Dinode
  blk : Nat → Bytes

namespace Disk

/-- The stores of `balloc`, `bfree`, `bzero` and `iupdate`. -/
def setBit (D : Disk) (b : Nat) (u : Bool) : Disk := { D with bit := update D.bit b u }

def setBlk (D : Disk) (b : Nat) (v : Bytes) : Disk := { D with blk := update D.blk b v }

def setIno (D : Disk) (i : Nat) (d : Dinode) : Disk := { D with ino := update D.ino i d }

/-- An allocated inode: "an inode is allocated if its type (on disk) is non-zero". -/
def Live (D : Disk) (sb : Superblock) (i : Nat) : Prop := i < sb.ninodes ∧ (D.ino i).type ≠ 0

instance (D : Disk) (sb : Superblock) (i : Nat) : Decidable (D.Live sb i) :=
  inferInstanceAs (Decidable (_ ∧ _))

end Disk

/-! ## Where block numbers are held -/

/-- A place that holds a block number: a direct slot, the indirect slot, an entry of the indirect
block. -/
inductive Ptr
  | direct (i : Nat) (k : Fin NDIRECT)
  | indirect (i : Nat)
  | entry (i : Nat) (j : Fin NINDIRECT)
  deriving DecidableEq

/-- The inode it belongs to. -/
def Ptr.ino : Ptr → Nat
  | direct i _ => i
  | indirect i => i
  | entry i _ => i

namespace Disk

/-- The slot of an allocated inode, zero for a free one. -/
def slot (D : Disk) (sb : Superblock) (i : Nat) (k : Fin (NDIRECT + 1)) : Nat :=
  if D.Live sb i then (D.ino i).addrs k else 0

/-- The block number held at `r`; zero if there is none. -/
def ptr (D : Disk) (sb : Superblock) : Ptr → Nat
  | .direct i k => D.slot sb i k.castSucc
  | .indirect i => D.slot sb i indSlot
  | .entry i j => if D.slot sb i indSlot = 0 then 0 else (D.blk (D.slot sb i indSlot)).word j

/-- Where the block number of the `n`-th block of `i` is held. -/
def place (i n : Nat) : Option Ptr :=
  if h : n < NDIRECT then some (.direct i ⟨n, h⟩)
  else if h : n - NDIRECT < NINDIRECT then some (.entry i ⟨n - NDIRECT, h⟩)
  else none

/-- The `n`-th block of `i`; zero if it has none. -/
def addr (D : Disk) (sb : Superblock) (i n : Nat) : Nat := ((place i n).map (D.ptr sb)).getD 0

/-- Byte `off` of inode `i`; a block that is not there reads as zeros. -/
def data (D : Disk) (sb : Superblock) (i off : Nat) : UInt8 :=
  if D.addr sb i (off / BSIZE) = 0 then 0 else D.blk (D.addr sb i (off / BSIZE)) (off % BSIZE)

end Disk

/-! ## Directories -/

structure Dirent where
  inum : Nat
  name : List UInt8

/-- A name as `strncmp` and `strncpy` read it: up to the first NUL, at most `DIRSIZ` bytes. -/
def cname (s : List UInt8) : List UInt8 := (s.take DIRSIZ).takeWhile (· ≠ 0)

/-- `namecmp(s, t) == 0` -/
def namecmp (s t : List UInt8) : Bool := cname s = cname t

/-- `strncpy(de.name, name, DIRSIZ)` -/
def strncpy (s : List UInt8) : List UInt8 :=
  cname s ++ List.replicate (DIRSIZ - (cname s).length) 0

abbrev dot : List UInt8 := [46]
abbrev dotdot : List UInt8 := [46, 46]

/-- The bytes of an entry read as a `struct dirent`. -/
def Dirent.decode (l : List UInt8) : Dirent :=
  ⟨(l.getD 0 0).toNat + 256 * (l.getD 1 0).toNat, l.drop 2⟩

/-- The bytes of the entry that `dirlink` writes. -/
def Dirent.encode (name : List UInt8) (inum : Nat) : List UInt8 :=
  UInt8.ofNat inum :: UInt8.ofNat (inum / 256) :: strncpy name

theorem cname_length (name : List UInt8) : (cname name).length ≤ DIRSIZ :=
  (takeWhile_sublist _).length_le.trans (length_take_le ..)

theorem strncpy_length (name : List UInt8) : (strncpy name).length = DIRSIZ := by
  have := cname_length name
  rw [strncpy, length_append, length_replicate]
  omega

theorem cname_strncpy (name : List UInt8) : cname (strncpy name) = cname name := by
  have hall : ∀ b ∈ cname name, decide (b ≠ 0) = true := by
    intro b hb
    exact mem_takeWhile_imp (p := fun b : UInt8 => decide (b ≠ 0)) hb
  rw [cname, take_of_length_le (strncpy_length name).le, strncpy,
    takeWhile_append_of_pos hall]
  simp

theorem encode_length (name : List UInt8) (inum : Nat) :
    (Dirent.encode name inum).length = DESIZE := by
  simp [Dirent.encode, strncpy_length]

/-- A `ushort` is stored. -/
theorem decode_encode (name : List UInt8) (inum : Nat) :
    Dirent.decode (Dirent.encode name inum) = ⟨inum % 65536, strncpy name⟩ := by
  unfold Dirent.decode Dirent.encode
  simp only [getD_cons_zero, getD_cons_succ, UInt8.toNat_ofNat', drop_succ_cons,
    drop_zero, Dirent.mk.injEq, and_true]
  omega

theorem decode_zero_inum : (Dirent.decode (List.replicate DESIZE 0)).inum = 0 := by decide

/-- Bytes `[off, off + n)` of inode `i`. -/
def Disk.bytes (D : Disk) (sb : Superblock) (i off n : Nat) : List UInt8 :=
  (List.range n).map fun k => D.data sb i (off + k)

/-- Entry `k` of the directory `i`. -/
def Disk.dirent (D : Disk) (sb : Superblock) (i k : Nat) : Dirent :=
  .decode (D.bytes sb i (DESIZE * k) DESIZE)

/-- How many entries the directory `i` has. -/
def Disk.entries (D : Disk) (i : Nat) : Nat := (D.ino i).size / DESIZE

end Xv6.Fs
