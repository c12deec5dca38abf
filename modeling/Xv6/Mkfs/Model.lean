import Xv6.Fs.Image
import Xv6.Fs.Layout

/-!
# `mkfs`

The program that makes the file system on the host.  It writes whole sectors of the image file:
a read behind the end of that file comes back short, and `mkfs` then exits with status 1.  Failures
of the host (a file that cannot be opened, a full disk) are left out, and so are the messages.

An input file is given with the pieces that `read` returns of it.  `trace` collects what the
program hands out and where it writes inodes; nothing looks at it.
-/

namespace Xv6.Mkfs

open Fs

abbrev FSSIZE : Nat := 2000
abbrev NINODES : Nat := 200
abbrev nbitmap : Nat := FSSIZE / (BSIZE * 8) + 1
abbrev ninodeblocks : Nat := NINODES / IPB + 1
abbrev nlog : Nat := LOGSIZE
/-- boot block, superblock, log, inodes and free map -/
abbrev nmeta : Nat := 2 + nlog + ninodeblocks + nbitmap
abbrev nblocks : Nat := FSSIZE - nmeta

def sb : Superblock := ⟨FSSIZE, nblocks, NINODES, by decide, by decide, by decide⟩

def layout : Layout sb := ⟨2 + nlog, 2 + nlog + ninodeblocks, by decide, by decide⟩

/-- The block of the superblock: `struct superblock`, and zeros. -/
def superblock : Bytes :=
  [FSSIZE, nblocks, NINODES, nlog, 2, 2 + nlog, 2 + nlog + ninodeblocks].zipIdx.foldl
    (fun v w => v.putWord w.2 w.1) fun _ => 0

/-! ## State -/

inductive Event
  /-- `ialloc` returns this number -/
  | inode (inum : Nat)
  /-- this number goes into an inode or an indirect block -/
  | block (b : Nat)
  /-- `winode` writes this sector -/
  | winode (bn : Nat)

/-- The image file, with its length in sectors, and the globals. -/
structure Image where
  sect : Nat → Bytes
  nsect : Nat
  freeinode : Nat
  freeblock : Nat
  trace : List Event

/-- How the program ends if not with status 0. -/
inductive Exit
  /-- `exit(1)` -/
  | one
  /-- an `assert` fails -/
  | abort
deriving DecidableEq

abbrev M := StateT Image (Except Exit)

/-- The image has just been opened with `O_TRUNC`. -/
def start : Image := ⟨fun _ _ => 0, 0, 1, nmeta, []⟩

/-- A file on the host.  Its name is a C string; `read` returns between 1 and `BSIZE` bytes until
the file ends. -/
structure HostFile where
  name : List UInt8
  name_ok : 0 ∉ name
  pieces : List (List UInt8)
  piece_ok : ∀ p ∈ pieces, 0 < p.length ∧ p.length ≤ BSIZE

def HostFile.bytes (f : HostFile) : List UInt8 := f.pieces.flatten

/-! ## Sectors and inodes -/

def wsect (sec : Nat) (buf : Bytes) : M Unit :=
  modify fun s =>
    { s with sect := Function.update s.sect sec buf, nsect := max s.nsect (sec + 1) }

def rsect (sec : Nat) : M Bytes := do
  let s ← get
  if sec < s.nsect then pure (s.sect sec) else throw .one

def note (e : Event) : M Unit := modify fun s => { s with trace := e :: s.trace }

def winode (inum : Nat) (d : Dinode) : M Unit := do
  let buf ← rsect (layout.iblock inum)
  wsect (layout.iblock inum) (buf.putDinode (inum % IPB) d)
  note (.winode (layout.iblock inum))

def rinode (inum : Nat) : M Dinode := do
  let buf ← rsect (layout.iblock inum)
  pure (buf.dinode (inum % IPB))

/-- The inode that `ialloc` writes. -/
def newInode (type : BitVec 16) : Dinode := { Dinode.fresh type with nlink := 1 }

def ialloc (type : BitVec 16) : M Nat := do
  let s ← get
  set { s with freeinode := s.freeinode + 1 }
  note (.inode s.freeinode)
  winode s.freeinode (newInode type)
  pure s.freeinode

/-- The free map with the first `used` bits set. -/
def bitmap (used : Nat) : Bytes := (List.range used).foldl (fun v i => v.putBit i true) fun _ => 0

def balloc (used : Nat) : M Unit :=
  if used < BSIZE * 8 then wsect layout.bmapstart (bitmap used) else throw .abort

/-! ## `iappend` -/

/-- `freeblock++` -/
def nextBlock : M Nat := do
  let s ← get
  set { s with freeblock := s.freeblock + 1 }
  note (.block s.freeblock)
  pure s.freeblock

/-- `din.addrs[k]`, with a new block if there is none. -/
def slot (din : Dinode) (k : Fin (NDIRECT + 1)) : M (Dinode × Nat) :=
  if din.addrs k = 0 then do
    let b ← nextBlock
    pure (din.setAddr k b, b)
  else pure (din, din.addrs k)

/-- `indirect[j]` of the indirect block `a`, with a new block if there is none. -/
def entry (a j : Nat) : M Nat := do
  let indirect ← rsect a
  if indirect.word j = 0 then do
    let b ← nextBlock
    wsect a (indirect.putWord j b)
    pure b
  else pure (indirect.word j)

/-- The number `x` of the `fbn`-th block of the file. -/
def block (din : Dinode) (fbn : Nat) : M (Dinode × Nat) :=
  if h : fbn < NDIRECT then slot din (Fin.castSucc ⟨fbn, h⟩)
  else do
    let (din, a) ← slot din indSlot
    let x ← entry a (fbn - NDIRECT)
    pure (din, x)

/-- The loop of `iappend`; each pass takes at least one byte. -/
def appendLoop : (fuel : Nat) → Dinode → (off : Nat) → List UInt8 → M (Dinode × Nat)
  | 0, din, off, _ => pure (din, off)
  | fuel + 1, din, off, p =>
    if p = [] then pure (din, off)
    else if ¬ off / BSIZE < MAXFILE then throw .abort
    else do
      let (din, x) ← block din (off / BSIZE)
      let n1 := min p.length ((off / BSIZE + 1) * BSIZE - off)
      let buf ← rsect x
      wsect x (buf.memmove (off - off / BSIZE * BSIZE) (p.take n1))
      appendLoop fuel din (off + n1) (p.drop n1)

def iappend (inum : Nat) (p : List UInt8) : M Unit := do
  let din ← rinode inum
  let (din, off) ← appendLoop p.length din din.size p
  winode inum { din with size := off }

/-! ## `main` -/

/-- "Skip leading _ in name when writing to file system." -/
def skipUnderscore : List UInt8 → List UInt8
  | [] => []
  | c :: name => if c = 95 then name else c :: name

/-- One pass of the loop over the arguments. -/
def addFile (rootino : Nat) (f : HostFile) : M Unit :=
  -- `index(argv[i], '/') == 0`
  if 47 ∈ f.name then throw .abort else do
    let inum ← ialloc T_FILE
    iappend rootino (Dirent.encode (skipUnderscore f.name) inum)
    f.pieces.forM (iappend inum)

/-- "fix size of root inode dir" -/
def fixRoot (rootino : Nat) : M Unit := do
  let din ← rinode rootino
  winode rootino { din with size := (din.size / BSIZE + 1) * BSIZE }

/-- `main` up to the arguments.  It is not unfolded where it stands in a statement, as a closed
program would be run. -/
@[irreducible] def makeRoot : M Unit := do
  (List.range FSSIZE).forM fun i => wsect i fun _ => 0
  wsect 1 superblock
  let rootino ← ialloc T_DIR
  if rootino ≠ ROOTINO then throw .abort else do
    iappend rootino (Dirent.encode dot rootino)
    iappend rootino (Dirent.encode dotdot rootino)

def main (files : List HostFile) : M Unit := do
  makeRoot
  files.forM (addFile ROOTINO)
  fixRoot ROOTINO
  let s ← get
  balloc s.freeblock

/-- The image, if `mkfs` exits with status 0. -/
def mkfs (files : List HostFile) : Except Exit Image := Prod.snd <$> main files start

end Xv6.Mkfs
