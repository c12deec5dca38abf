import Xv6.Lib.System
import Xv6.Fs.Model

/-!
# Files and system calls (`file.c`, `sysfile.c`, and `fork`, `exit` and `exec`)

The machine takes completed system calls, one after another, by any process that
exists.  It starts with `userinit`: one process, whose current directory is the
root, which is in the cache but has not been read.
-/

namespace Xv6.Fs

abbrev LOGSIZE : Nat := 30
abbrev O_WRONLY : Nat := 0x001
abbrev O_RDWR : Nat := 0x002
abbrev O_CREATE : Nat := 0x200
/-- The slot of `initproc`. -/
abbrev initproc : Pid := 0

variable (sb : Superblock) (dev : Devsw)

def modF (f : FSlot) (g : File → File) : M Unit :=
  modify fun s => { s with ft := Function.update s.ft f (g (s.ft f)) }

def modP (p : Pid) (g : Proc → Proc) : M Unit :=
  modify fun s => { s with proc := Function.update s.proc p (g (s.proc p)) }

def Proc.setFd (q : Proc) (fd : Fin NOFILE) (f : Option FSlot) : Proc :=
  { q with ofile := Function.update q.ofile fd f }

/-! ## `file.c` -/

def filealloc : M (Option FSlot) := do
  let s ← get
  match (List.finRange NFILE).find? fun f => (s.ft f).ref = 0 with
  | none => pure none
  | some f => do
    modF f fun x => { x with ref := 1 }
    pure (some f)

def filedup (f : FSlot) : M Unit := do
  let s ← get
  if (s.ft f).ref < 1 then throw .filedup
  else modF f fun x => { x with ref := x.ref + 1 }

def fileclose (f : FSlot) : M Unit := do
  let s ← get
  if (s.ft f).ref < 1 then throw .fileclose
  else if 1 < (s.ft f).ref then modF f fun x => { x with ref := x.ref - 1 }
  else do
    modF f fun x => { x with ref := 0, type := .none }
    match (s.ft f).type with
    | .none => pure ()
    | .inode => do
      beginOp
      iput (s.ft f).ip
      endOp

/-- `f->off += r` -/
def advance (f : FSlot) (r : Nat) : M Unit :=
  modF f fun x => { x with off := (x.off + r) % 2 ^ 32 }

def fileread (f : FSlot) (n : Nat) : M (Option (List UInt8)) := do
  let s ← get
  if (s.ft f).readable = false then pure none
  else match (s.ft f).type with
    | .none => throw .fileread
    | .inode => do
      ilock (s.ft f).ip
      let r ← readi sb dev (s.ft f).ip (s.ft f).off n
      match r with
      | none => do
        iunlock (s.ft f).ip
        pure none
      | some l => do
        advance f l.length
        iunlock (s.ft f).ip
        pure (some l)

/-- The most that one transaction of `filewrite` writes. -/
abbrev maxChunk : Nat := (LOGSIZE - 1 - 1 - 2) / 2 * 512

/-- The loop of `filewrite`; each pass writes at least one byte. -/
def filewriteLoop (f : FSlot) : (fuel : Nat) → List UInt8 → M Bool
  | 0, _ => pure true
  | fuel + 1, src =>
    if src = [] then pure true else do
      let n1 := min src.length maxChunk
      let s ← get
      beginOp
      ilock (s.ft f).ip
      let r ← writei sb dev (s.ft f).ip (src.take n1) (s.ft f).off
      match r with
      | none => do
        iunlock (s.ft f).ip
        endOp
        pure false
      | some m => do
        advance f m
        iunlock (s.ft f).ip
        endOp
        if m ≠ n1 then throw .shortFilewrite
        else filewriteLoop f fuel (src.drop m)

def filewrite (f : FSlot) (src : List UInt8) : M (Option Nat) := do
  let s ← get
  if (s.ft f).writable = false then pure none
  else match (s.ft f).type with
    | .none => throw .filewrite
    | .inode => do
      let ok ← filewriteLoop sb dev f src.length src
      pure (if ok then some src.length else none)

/-! ## `sysfile.c` -/

/-- The file of a descriptor; `none` is `-1`. -/
def argfd (p : Pid) (fd : Nat) : M (Option (Fin NOFILE × FSlot)) := do
  let s ← get
  if h : fd < NOFILE then pure (((s.proc p).ofile ⟨fd, h⟩).map fun f => (⟨fd, h⟩, f))
  else pure none

def fdalloc (p : Pid) (f : FSlot) : M (Option (Fin NOFILE)) := do
  let s ← get
  match (List.finRange NOFILE).find? fun fd => ((s.proc p).ofile fd).isNone with
  | none => pure none
  | some fd => do
    modP p fun q => q.setFd fd (some f)
    pure (some fd)

def sysDup (p : Pid) (fd : Nat) : M (Option Nat) := do
  let r ← argfd p fd
  match r with
  | none => pure none
  | some (_, f) => do
    let r ← fdalloc p f
    match r with
    | none => pure none
    | some fd => do
      filedup f
      pure (some fd)

def sysRead (p : Pid) (fd n : Nat) : M (Option Nat) := do
  let r ← argfd p fd
  match r with
  | none => pure none
  | some (_, f) => do
    let r ← fileread sb dev f n
    pure (r.map List.length)

def sysWrite (p : Pid) (fd : Nat) (src : List UInt8) : M (Option Nat) := do
  let r ← argfd p fd
  match r with
  | none => pure none
  | some (_, f) => filewrite sb dev f src

def sysClose (p : Pid) (fd : Nat) : M (Option Nat) := do
  let r ← argfd p fd
  match r with
  | none => pure none
  | some (fd, f) => do
    modP p fun q => q.setFd fd none
    fileclose f
    pure (some 0)

/-- The label `bad` of `sys_link`. -/
def linkBad (ip : ISlot) : M (Option Nat) := do
  ilock ip
  modC ip fun d => { d with nlink := d.nlink - 1 }
  iupdate ip
  iunlockput ip
  endOp
  pure none

def sysLink (p : Pid) (old new : List UInt8) : M (Option Nat) := do
  beginOp
  let r ← namei sb dev p old
  match r with
  | none => do
    endOp
    pure none
  | some ip => do
    ilock ip
    let s ← get
    if (s.ic ip).copy.type = T_DIR then do
      iunlockput ip
      endOp
      pure none
    else do
      modC ip fun d => { d with nlink := d.nlink + 1 }
      iupdate ip
      iunlock ip
      let r ← nameiparent sb dev p new
      match r with
      | none => linkBad ip
      | some (dp, name) => do
        ilock dp
        let ok ← dirlink sb dev dp name (s.ic ip).inum
        iunlockput dp
        if ok = false then linkBad ip
        else do
          iput ip
          endOp
          pure (some 0)

/-- The label `bad` of `sys_unlink`. -/
def unlinkBad (dp : ISlot) : M (Option Nat) := do
  iunlockput dp
  endOp
  pure none

/-- `sys_unlink` once the entry is found at `off`. -/
def unlinkEntry (dp ip : ISlot) (off : Nat) : M (Option Nat) := do
  let w ← writei sb dev dp (List.replicate DESIZE 0) off
  if w ≠ some DESIZE then throw .unlinkWritei else do
    let s ← get
    if (s.ic ip).copy.type = T_DIR then do
      modC dp fun d => { d with nlink := d.nlink - 1 }
      iupdate dp
    else pure ()
    iunlockput dp
    modC ip fun d => { d with nlink := d.nlink - 1 }
    iupdate ip
    iunlockput ip
    endOp
    pure (some 0)

def sysUnlink (p : Pid) (path : List UInt8) : M (Option Nat) := do
  beginOp
  let r ← nameiparent sb dev p path
  match r with
  | none => do
    endOp
    pure none
  | some (dp, name) => do
    ilock dp
    if namecmp name dot ∨ namecmp name dotdot then unlinkBad dp
    else do
      let r ← dirlookup sb dev dp name
      match r with
      | none => unlinkBad dp
      | some (ip, off) => do
        ilock ip
        let s ← get
        if (s.ic ip).copy.nlink.toInt < 1 then throw .unlinkNlink
        else if (s.ic ip).copy.type = T_DIR then do
          let e ← isdirempty sb dev ip
          if e = false then do
            iunlockput ip
            unlinkBad dp
          else unlinkEntry sb dev dp ip off
        else unlinkEntry sb dev dp ip off

/-- `create` once the name is known to be new. -/
def createNew (dp : ISlot) (name : List UInt8) (type major minor : BitVec 16) : M ISlot := do
  let ip ← ialloc sb type
  ilock ip
  modC ip fun d => { d with major := major, minor := minor, nlink := 1 }
  iupdate ip
  let s ← get
  if type = T_DIR then do
    modC dp fun d => { d with nlink := d.nlink + 1 }
    iupdate dp
    let a ← dirlink sb dev ip dot (s.ic ip).inum
    if a = false then throw .createDots else do
      let b ← dirlink sb dev ip dotdot (s.ic dp).inum
      if b = false then throw .createDots else pure ()
  else pure ()
  let c ← dirlink sb dev dp name (s.ic ip).inum
  if c = false then throw .createDirlink else do
    iunlockput dp
    pure ip

/-- The inode is returned locked. -/
def create (p : Pid) (path : List UInt8) (type major minor : BitVec 16) : M (Option ISlot) := do
  let r ← nameiparent sb dev p path
  match r with
  | none => pure none
  | some (dp, name) => do
    ilock dp
    let r ← dirlookup sb dev dp name
    match r with
    | some (ip, _) => do
      iunlockput dp
      ilock ip
      let s ← get
      if type = T_FILE ∧ (s.ic ip).copy.type = T_FILE then pure (some ip)
      else do
        iunlockput ip
        pure none
    | none => do
      let ip ← createNew sb dev dp name type major minor
      pure (some ip)

/-- `sys_open` with the inode locked. -/
def openFile (p : Pid) (ip : ISlot) (omode : Nat) : M (Option Nat) := do
  let r ← filealloc
  match r with
  | none => do
    iunlockput ip
    endOp
    pure none
  | some f => do
    let r ← fdalloc p f
    match r with
    | none => do
      fileclose f
      iunlockput ip
      endOp
      pure none
    | some fd => do
      iunlock ip
      endOp
      modF f fun x => { x with
        type := .inode, ip := ip, off := 0
        readable := omode &&& O_WRONLY = 0
        writable := ¬ (omode &&& O_WRONLY = 0) ∨ ¬ (omode &&& O_RDWR = 0) }
      pure (some fd)

def sysOpen (p : Pid) (path : List UInt8) (omode : Nat) : M (Option Nat) := do
  beginOp
  if omode &&& O_CREATE ≠ 0 then do
    let r ← create sb dev p path T_FILE 0 0
    match r with
    | none => do
      endOp
      pure none
    | some ip => openFile p ip omode
  else do
    let r ← namei sb dev p path
    match r with
    | none => do
      endOp
      pure none
    | some ip => do
      ilock ip
      let s ← get
      if (s.ic ip).copy.type = T_DIR ∧ omode ≠ 0 then do
        iunlockput ip
        endOp
        pure none
      else openFile p ip omode

/-- `sys_mkdir` and `sys_mknod` differ in what they hand to `create`. -/
def make (p : Pid) (path : List UInt8) (type major minor : BitVec 16) : M (Option Nat) := do
  beginOp
  let r ← create sb dev p path type major minor
  match r with
  | none => do
    endOp
    pure none
  | some ip => do
    iunlockput ip
    endOp
    pure (some 0)

def sysMkdir (p : Pid) (path : List UInt8) : M (Option Nat) := make sb dev p path T_DIR 0 0

def sysMknod (p : Pid) (path : List UInt8) (major minor : BitVec 16) : M (Option Nat) :=
  make sb dev p path T_DEV major minor

def sysChdir (p : Pid) (path : List UInt8) : M (Option Nat) := do
  beginOp
  let r ← namei sb dev p path
  match r with
  | none => do
    endOp
    pure none
  | some ip => do
    ilock ip
    let s ← get
    if (s.ic ip).copy.type ≠ T_DIR then do
      iunlockput ip
      endOp
      pure none
    else do
      iunlock ip
      match (s.proc p).cwd with
      | none => throw .fault
      | some c => do
        iput c
        endOp
        modP p fun q => { q with cwd := some ip }
        pure (some 0)

/-- `sys_chmod`, `sys_chown` and `sys_chgrp`: the argument is checked by the system call and again
inside the transaction, and stored with `set`. -/
def chattr (bound : Int) (set : Int → Dinode → Dinode) (p : Pid) (path : List UInt8) (v : Int) :
    M (Option Nat) :=
  if v < 0 ∨ bound < v then pure none
  else do
    beginOp
    if v < 0 ∨ bound < v then do
      endOp
      pure none
    else do
      let r ← namei sb dev p path
      match r with
      | none => do
        endOp
        pure none
      | some ip => do
        ilock ip
        modC ip (set v)
        iupdate ip
        iunlockput ip
        endOp
        pure (some 0)

def chmod : Pid → List UInt8 → Int → M (Option Nat) :=
  chattr sb dev 1023 fun mode d => { d with mode := BitVec.ofInt 32 mode }

def chown : Pid → List UInt8 → Int → M (Option Nat) :=
  chattr sb dev 32767 fun owner d => { d with uid := BitVec.ofInt 16 owner }

def chgrp : Pid → List UInt8 → Int → M (Option Nat) :=
  chattr sb dev 32767 fun group d => { d with gid := BitVec.ofInt 16 group }

/-- What `exec` does to the file system.  Which parts of the file it reads before it gives up or
succeeds depends on permissions, contents and memory; here `reads` says it. -/
def execFile (p : Pid) (path : List UInt8) (reads : List (Nat × Nat)) : M (Option Nat) := do
  beginOp
  let r ← namei sb dev p path
  match r with
  | none => do
    endOp
    pure none
  | some ip => do
    ilock ip
    reads.forM fun r => do
      let _ ← readi sb dev ip r.1 r.2
    iunlockput ip
    endOp
    pure (some 0)

/-! ## `proc.c` -/

/-- `fork` gives the new process `q` what the caller has. -/
def fork (p q : Pid) : M (Option Nat) := do
  let s ← get
  match (s.proc q).cwd, (s.proc p).cwd with
  | none, some c => do
    (List.finRange NOFILE).forM fun fd =>
      match (s.proc p).ofile fd with
      | none => pure ()
      | some f => filedup f
    let c ← idup c
    modP q fun _ => { cwd := some c, ofile := (s.proc p).ofile }
    pure (some 0)
  | _, _ => pure none

/-- One pass of the loop of `exit`. -/
def exitClose (p : Pid) (fd : Fin NOFILE) : M Unit := do
  let s ← get
  match (s.proc p).ofile fd with
  | none => pure ()
  | some f => do
    fileclose f
    modP p fun q => q.setFd fd none

def exit (p : Pid) : M (Option Nat) := do
  if p = initproc then throw .initExiting else do
    (List.finRange NOFILE).forM (exitClose p)
    let s ← get
    match (s.proc p).cwd with
    | none => throw .fault
    | some c => do
      beginOp
      iput c
      endOp
      modP p fun q => { q with cwd := none }
      pure (some 0)

/-! ## The machine -/

inductive Act
  | openFile (path : List UInt8) (omode : Nat)
  | mkdir (path : List UInt8)
  | mknod (path : List UInt8) (major minor : BitVec 16)
  | link (old new : List UInt8)
  | unlink (path : List UInt8)
  | chdir (path : List UInt8)
  | chmod (path : List UInt8) (mode : Int)
  | chown (path : List UInt8) (owner : Int)
  | chgrp (path : List UInt8) (group : Int)
  | exec (path : List UInt8) (reads : List (Nat × Nat))
  | read (fd n : Nat)
  | write (fd : Nat) (src : List UInt8)
  | close (fd : Nat)
  | dup (fd : Nat)
  | fork (q : Pid)
  | exit

/-- What process `p` does. -/
def exec (p : Pid) : Act → M (Option Nat)
  | .openFile path omode => sysOpen sb dev p path omode
  | .mkdir path => sysMkdir sb dev p path
  | .mknod path major minor => sysMknod sb dev p path major minor
  | .link old new => sysLink sb dev p old new
  | .unlink path => sysUnlink sb dev p path
  | .chdir path => sysChdir sb dev p path
  | .chmod path mode => Fs.chmod sb dev p path mode
  | .chown path owner => Fs.chown sb dev p path owner
  | .chgrp path group => Fs.chgrp sb dev p path group
  | .exec path reads => execFile sb dev p path reads
  | .read fd n => sysRead sb dev p fd n
  | .write fd src => sysWrite sb dev p fd src
  | .close fd => sysClose p fd
  | .dup fd => sysDup p fd
  | .fork q => Fs.fork p q
  | .exit => Fs.exit p

/-- After `userinit`: `namei("/")` has put the root into the first entry. -/
def boot (D : Disk) : State where
  disk := D
  ic := fun s => ⟨if s = 0 then ROOTINO else 0, if s = 0 then 1 else 0, false, false, .fresh 0⟩
  ft := fun _ => ⟨.none, 0, false, false, 0, 0⟩
  proc := fun p => ⟨if p = initproc then some 0 else none, fun _ => none⟩
  tx := false

/-- Completed calls of processes that exist, from an image. -/
def machine (image : Disk → Prop) : System State (Pid × Act) where
  init s := ∃ D, image D ∧ s = boot D
  step s a s' := (s.proc a.1).cwd ≠ none ∧ ∃ r, exec sb dev a.1 a.2 s = .ok (r, s')

end Xv6.Fs
