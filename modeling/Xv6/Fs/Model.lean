import Xv6.Lib.Run
import Xv6.Fs.Disk

/-!
# The file system's routines (`fs.c`)

A routine is a program over the state of the file system that can panic.  The
state is the disk as seen through the log, the inode cache, the file table, and
each process's current directory and descriptors.  System calls are run one after
another: a call that would sleep on an inode it has locked itself sleeps for ever,
and like one that panics it does not complete.

Only block numbers and inode fields matter here, so the spinlocks, the buffers and
the device number (there is one disk) are left out.
-/

namespace Xv6.Fs

abbrev NINODE : Nat := 50
abbrev NFILE : Nat := 100
abbrev NOFILE : Nat := 16
abbrev NPROC : Nat := 64
abbrev NDEV : Nat := 10

abbrev ISlot := Fin NINODE
abbrev FSlot := Fin NFILE
abbrev Pid := Fin NPROC

/-! ## State -/

/-- `struct inode`: an entry of the inode cache with its copy of the disk inode. -/
structure Inode where
  inum : Nat
  ref : Nat
  busy : Bool
  valid : Bool
  copy : Dinode

inductive FdType
  | none | inode
  deriving DecidableEq

/-- `struct file`.  Pipes are not modelled. -/
structure File where
  type : FdType
  ref : Nat
  readable : Bool
  writable : Bool
  ip : ISlot
  off : Nat

/-- The part of `struct proc` that names files.  `cwd` is `none` for a process that is not there. -/
structure Proc where
  cwd : Option ISlot
  ofile : Fin NOFILE → Option FSlot

structure State where
  disk : Disk
  ic : ISlot → Inode
  ft : FSlot → File
  proc : Pid → Proc
  /-- inside `begin_op` .. `end_op` -/
  tx : Bool

/-- How a call can fail to complete. -/
inductive Panic
  | outOfBlocks | freeingFree | noInodes | igetNoInodes | ilockRef | noType | iunlock | iputBusy
  | bmapRange | dirlookupNotDir | dirlinkRead | dirlink | isdiremptyReadi | unlinkNlink
  | unlinkWritei | createDots | createDirlink | filedup | fileclose | fileread | filewrite
  | shortFilewrite | initExiting | outsideTrans
  /-- the call waits for an inode that it holds locked -/
  | sleeps
  /-- a null pointer is followed -/
  | fault
  deriving DecidableEq

abbrev M := StateT State (Except Panic)

/-- The `read` and `write` functions of `devsw`, which leave the file system alone; `none` is `-1`. -/
structure Devsw where
  read : BitVec 16 → Nat → Option (List UInt8)
  write : BitVec 16 → List UInt8 → Option Nat

variable (sb : Superblock) (dev : Devsw)

def modI (ip : ISlot) (f : Inode → Inode) : M Unit :=
  modify fun s => { s with ic := Function.update s.ic ip (f (s.ic ip)) }

/-- A store into the copy of the disk inode. -/
def modC (ip : ISlot) (f : Dinode → Dinode) : M Unit :=
  modI ip fun e => { e with copy := f e.copy }

def modD (f : Disk → Disk) : M Unit := modify fun s => { s with disk := f s.disk }

def beginOp : M Unit := modify fun s => { s with tx := true }

def endOp : M Unit := modify fun s => { s with tx := false }

/-- `log_write`, which panics outside of a transaction. -/
def logWrite : M Unit := do
  let s ← get
  if s.tx then pure () else throw .outsideTrans

/-! ## Blocks -/

/-- The first free block, marked and zeroed. -/
def balloc : M Nat := do
  let s ← get
  match (List.range sb.size).find? fun b => !s.disk.bit b with
  | none => throw .outOfBlocks
  | some b => do
    modD fun D => D.setBit b true
    logWrite
    modD fun D => D.setBlk b fun _ => 0
    logWrite
    pure b

def bfree (b : Nat) : M Unit := do
  let s ← get
  if s.disk.bit b = false then throw .freeingFree else do
    modD fun D => D.setBit b false
    logWrite

/-! ## Inodes -/

def iupdate (ip : ISlot) : M Unit := do
  let s ← get
  modD fun D => D.setIno (s.ic ip).inum (s.ic ip).copy
  logWrite

/-- The entry with `inum`, or else the first empty one. -/
def iget (inum : Nat) : M ISlot := do
  let s ← get
  match (List.finRange NINODE).find? fun t => 0 < (s.ic t).ref ∧ (s.ic t).inum = inum with
  | some ip => do
    modI ip fun e => { e with ref := e.ref + 1 }
    pure ip
  | none =>
    match (List.finRange NINODE).find? fun t => (s.ic t).ref = 0 with
    | none => throw .igetNoInodes
    | some ip => do
      modI ip fun e => { e with inum := inum, ref := 1, busy := false, valid := false }
      pure ip

/-- The first inode that is free on the disk, from 1 on. -/
def ialloc (type : BitVec 16) : M ISlot := do
  let s ← get
  match ((List.range sb.ninodes).drop 1).find? fun i => (s.disk.ino i).type = 0 with
  | none => throw .noInodes
  | some i => do
    modD fun D => D.setIno i (.fresh type)
    logWrite
    iget i

def idup (ip : ISlot) : M ISlot := do
  modI ip fun e => { e with ref := e.ref + 1 }
  pure ip

def ilock (ip : ISlot) : M Unit := do
  let s ← get
  if (s.ic ip).ref < 1 then throw .ilockRef
  else if (s.ic ip).busy then throw .sleeps
  else do
    modI ip fun e => { e with busy := true }
    if (s.ic ip).valid then pure () else do
      modI ip fun e => { e with copy := s.disk.ino e.inum, valid := true }
      if (s.disk.ino (s.ic ip).inum).type = 0 then throw .noType else pure ()

def iunlock (ip : ISlot) : M Unit := do
  let s ← get
  if (s.ic ip).busy = false ∨ (s.ic ip).ref < 1 then throw .iunlock
  else modI ip fun e => { e with busy := false }

/-- One pass of the first loop of `itrunc`. -/
def truncSlot (ip : ISlot) (k : Fin (NDIRECT + 1)) : M Unit := do
  let s ← get
  if (s.ic ip).copy.addrs k = 0 then pure () else do
    bfree ((s.ic ip).copy.addrs k)
    modC ip fun d => d.setAddr k 0

/-- One pass of the loop over the indirect block `v`. -/
def truncEntry (v : Bytes) (j : Nat) : M Unit :=
  if v.word j = 0 then pure () else bfree (v.word j)

def truncIndirect (ip : ISlot) : M Unit := do
  let s ← get
  if (s.ic ip).copy.addrs indSlot = 0 then pure () else do
    (List.range NINDIRECT).forM (truncEntry (s.disk.blk ((s.ic ip).copy.addrs indSlot)))
    truncSlot ip indSlot

def itrunc (ip : ISlot) : M Unit := do
  (List.finRange NDIRECT).forM fun k => truncSlot ip k.castSucc
  truncIndirect ip
  modC ip fun d => { d with size := 0 }
  iupdate ip

def iput (ip : ISlot) : M Unit := do
  let s ← get
  if (s.ic ip).ref = 1 ∧ (s.ic ip).valid = true ∧ (s.ic ip).copy.nlink = 0 then do
    if (s.ic ip).busy then throw .iputBusy else do
      modI ip fun e => { e with busy := true }
      itrunc ip
      modC ip fun d => { d with type := 0 }
      iupdate ip
      modI ip fun e => { e with busy := false, valid := false, ref := e.ref - 1 }
  else modI ip fun e => { e with ref := e.ref - 1 }

def iunlockput (ip : ISlot) : M Unit := do
  iunlock ip
  iput ip

/-! ## Contents -/

/-- `ip->addrs[k]`, allocating the block if there is none. -/
def mapSlot (ip : ISlot) (k : Fin (NDIRECT + 1)) : M Nat := do
  let s ← get
  if (s.ic ip).copy.addrs k = 0 then do
    let b ← balloc sb
    modC ip fun d => d.setAddr k b
    pure b
  else pure ((s.ic ip).copy.addrs k)

/-- `a[j]` of the indirect block `a`, allocating the block if there is none. -/
def mapEntry (a j : Nat) : M Nat := do
  let s ← get
  if (s.disk.blk a).word j = 0 then do
    let b ← balloc sb
    modD fun D => D.setBlk a ((D.blk a).putWord j b)
    logWrite
    pure b
  else pure ((s.disk.blk a).word j)

def bmap (ip : ISlot) (bn : Nat) : M Nat :=
  if h : bn < NDIRECT then mapSlot sb ip (Fin.castSucc ⟨bn, h⟩)
  else if bn - NDIRECT < NINDIRECT then do
    let a ← mapSlot sb ip indSlot
    mapEntry sb a (bn - NDIRECT)
  else throw .bmapRange

/-- The loop of `readi`; each pass reads at least one byte, so `n` passes are enough. -/
def readLoop (ip : ISlot) : (fuel off n : Nat) → M (List UInt8)
  | 0, _, _ => pure []
  | fuel + 1, off, n =>
    if n = 0 then pure [] else do
      let a ← bmap sb ip (off / BSIZE)
      let s ← get
      let m := min n (BSIZE - off % BSIZE)
      let rest ← readLoop ip fuel (off + m) (n - m)
      pure ((List.range m).map (fun k => s.disk.blk a (off % BSIZE + k)) ++ rest)

/-- `readi(ip, dst, off, n)` with the bytes it copies out; `none` is `-1`. -/
def readi (ip : ISlot) (off n : Nat) : M (Option (List UInt8)) := do
  let s ← get
  let d := (s.ic ip).copy
  if d.type = T_DEV then
    if d.major.toInt < 0 ∨ NDEV ≤ d.major.toInt then pure none else pure (dev.read d.major n)
  else if d.size < off ∨ 2 ^ 32 ≤ off + n then pure none
  else do
    let n := if d.size < off + n then d.size - off else n
    let l ← readLoop sb ip n off n
    pure (some l)

/-- The loop of `writei`, and the offset it ends at. -/
def writeLoop (ip : ISlot) : (fuel off : Nat) → List UInt8 → M Nat
  | 0, off, _ => pure off
  | fuel + 1, off, src =>
    if src = [] then pure off else do
      let a ← bmap sb ip (off / BSIZE)
      let m := min src.length (BSIZE - off % BSIZE)
      modD fun D => D.setBlk a ((D.blk a).memmove (off % BSIZE) (src.take m))
      logWrite
      writeLoop ip fuel (off + m) (src.drop m)

/-- `writei(ip, src, off, n)` with `n` the length of `src`; `none` is `-1`. -/
def writei (ip : ISlot) (src : List UInt8) (off : Nat) : M (Option Nat) := do
  let s ← get
  let d := (s.ic ip).copy
  if d.type = T_DEV then
    if d.major.toInt < 0 ∨ NDEV ≤ d.major.toInt then pure none else pure (dev.write d.major src)
  else if d.size < off ∨ 2 ^ 32 ≤ off + src.length then pure none
  else if MAXFILE * BSIZE < off + src.length then pure none
  else do
    let o ← writeLoop sb ip src.length off src
    if 0 < src.length ∧ d.size < o then do
      modC ip fun d => { d with size := o }
      iupdate ip
      pure (some src.length)
    else pure (some src.length)

/-! ## Directories -/

/-- The loop of `dirlookup`, `dirlink` and `isdirempty`: the offset of the first entry from `off`
on that has `test`.  `err` is the panic on a short read. -/
def scan (dp : ISlot) (err : Panic) (test : Dirent → Bool) :
    (fuel off : Nat) → M (Option (Nat × Dirent))
  | 0, _ => pure none
  | fuel + 1, off => do
    let s ← get
    if off < (s.ic dp).copy.size then do
      let r ← readi sb dev dp off DESIZE
      match r with
      | none => throw err
      | some l =>
        if l.length ≠ DESIZE then throw err
        else if test (.decode l) then pure (some (off, .decode l))
        else scan dp err test fuel (off + DESIZE)
    else pure none

/-- Enough passes for a directory of this size. -/
def passes (size : Nat) : Nat := size / DESIZE + 1

/-- The inode that `name` stands for and the offset of its entry. -/
def dirlookup (dp : ISlot) (name : List UInt8) : M (Option (ISlot × Nat)) := do
  let s ← get
  if (s.ic dp).copy.type ≠ T_DIR then throw .dirlookupNotDir else do
    let r ← scan sb dev dp .dirlinkRead (fun de => de.inum ≠ 0 ∧ namecmp name de.name)
      (passes (s.ic dp).copy.size) 0
    match r with
    | none => pure none
    | some (off, de) => do
      let ip ← iget de.inum
      pure (some (ip, off))

/-- `false` is `-1`. -/
def dirlink (dp : ISlot) (name : List UInt8) (inum : Nat) : M Bool := do
  let r ← dirlookup sb dev dp name
  match r with
  | some (ip, _) => do
    iput ip
    pure false
  | none => do
    let s ← get
    let r ← scan sb dev dp .dirlinkRead (fun de => de.inum = 0) (passes (s.ic dp).copy.size) 0
    -- the loop that finds no empty entry stops at the first multiple of the entry size past the end
    let w ← writei sb dev dp (Dirent.encode name inum)
      ((r.map Prod.fst).getD (((s.ic dp).copy.size + (DESIZE - 1)) / DESIZE * DESIZE))
    if w = some DESIZE then pure true else throw .dirlink

/-- Only `.` and `..` are left. -/
def isdirempty (dp : ISlot) : M Bool := do
  let s ← get
  let r ← scan sb dev dp .isdiremptyReadi (fun de => de.inum ≠ 0)
    (passes (s.ic dp).copy.size) (2 * DESIZE)
  pure r.isNone

/-! ## Paths -/

abbrev slash : UInt8 := 47

/-- The next path element and what follows it, without leading slashes. -/
def skipelem (path : List UInt8) : Option (List UInt8 × List UInt8) :=
  let p := path.dropWhile (· = slash)
  if p = [] then none
  else some ((p.takeWhile (· ≠ slash)).take DIRSIZ,
    (p.dropWhile (· ≠ slash)).dropWhile (· = slash))

/-- The elements of a path in the order in which `skipelem` cuts them off. -/
def elems : (fuel : Nat) → List UInt8 → List (List UInt8)
  | 0, _ => []
  | fuel + 1, path =>
    match skipelem path with
    | none => []
    | some (name, rest) => name :: elems fuel rest

/-- The loop of `namex`.  "`*path == 0`" after `skipelem` is: no elements are left. -/
def namexLoop (parent : Bool) : ISlot → List UInt8 → List (List UInt8) →
    M (Option (ISlot × List UInt8))
  | ip, last, [] =>
    if parent then do
      iput ip
      pure none
    else pure (some (ip, last))
  | ip, _, name :: rest => do
    ilock ip
    let s ← get
    if (s.ic ip).copy.type ≠ T_DIR then do
      iunlockput ip
      pure none
    else if parent = true ∧ rest = [] then do
      iunlock ip
      pure (some (ip, name))
    else do
      let r ← dirlookup sb dev ip name
      iunlockput ip
      match r with
      | none => pure none
      | some (next, _) => namexLoop parent next name rest

/-- A path is a C string. -/
def namex (p : Pid) (path : List UInt8) (parent : Bool) : M (Option (ISlot × List UInt8)) := do
  let s ← get
  let path := path.takeWhile (· ≠ 0)
  let ip ← if path.head? = some slash then iget ROOTINO
    else match (s.proc p).cwd with
      | none => throw .fault
      | some c => idup c
  namexLoop sb dev parent ip [] (elems path.length path)

def namei (p : Pid) (path : List UInt8) : M (Option ISlot) := do
  let r ← namex sb dev p path false
  pure (r.map Prod.fst)

def nameiparent (p : Pid) (path : List UInt8) : M (Option (ISlot × List UInt8)) :=
  namex sb dev p path true

end Xv6.Fs
