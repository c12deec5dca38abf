import Xv6.Lib.System
import Xv6.Fs.Model

/-!
# References, step by step (`file.c`, `fs.c`, `pipe.c`, `sysfile.c`, `proc.c`)

The system calls that take and drop references to open files and to inodes, cut
where another process can come in between.  What a process does under `ftable.lock` or
`icache.lock`, or to its own table of descriptors, is one step.  A program (`Prog`) is
such a step and what follows it; the machine takes a step of any process at any time.

What a directory holds, whether an inode is a directory, and whether memory runs out
is not known here: the answers are given with the step.  Waiting for locks and for
the log only rules out some of the interleavings, so it is left out.
-/

namespace Xv6.Refs

open Function
open Fs (ISlot FSlot Pid NINODE NFILE NOFILE ROOTINO)

abbrev ROOTDEV : Nat := 1
/-- The slot of `initproc`. -/
abbrev initproc : Pid := 0

/-! ## State -/

inductive FdType
  | none | pipe | inode
  deriving DecidableEq

/-- `struct file`: what it refers to. -/
structure File where
  type : FdType
  ref : Nat
  ip : ISlot

/-- Device and inode number. -/
abbrev Key := Nat × Nat

/-- `struct inode`: which inode it is. -/
structure Inode where
  key : Key
  ref : Nat

structure Proc where
  cwd : Option ISlot
  ofile : Fin NOFILE → Option FSlot

/-- A process that holds nothing. -/
def Proc.empty : Proc := ⟨none, fun _ => none⟩

def Proc.setFd (x : Proc) (fd : Fin NOFILE) (f : Option FSlot) : Proc :=
  { x with ofile := update x.ofile fd f }

inductive Status
  | unused | embryo | live | zombie
  deriving DecidableEq

inductive Panic
  | filedup | fileclose | iget | noInodes | initExiting
  /-- a null pointer is followed -/
  | fault
  deriving DecidableEq

/-- A step and what follows it. -/
inductive Prog
  /-- return to user mode -/
  | done
  /-- the end of `exit` -/
  | gone
  | panic (e : Panic)
  | filealloc (k : Option FSlot → Prog)
  | filedup (f : FSlot) (k : Prog)
  /-- the locked part of `fileclose`; the copy `ff` if that was the last reference -/
  | filedrop (f : FSlot) (k : Option File → Prog)
  /-- `f->type = FD_PIPE`, and `f->type = FD_INODE` with `f->ip = ip` -/
  | setPipe (f : FSlot) (k : Prog)
  | setInode (f : FSlot) (ip : ISlot) (k : Prog)
  | iget (key : Key) (k : ISlot → Prog)
  | idup (ip : ISlot) (k : Prog)
  /-- `ip->ref--` of `iput`; what it does to the inode before is not a reference's business -/
  | iput (ip : ISlot) (k : Prog)
  /-- `proc` -/
  | self (k : Proc → Prog)
  | setFd (fd : Fin NOFILE) (f : Option FSlot) (k : Prog)
  | setCwd (ip : Option ISlot) (k : Prog)
  /-- whether something that is not modelled succeeds -/
  | ask (k : Bool → Prog)
  /-- what a directory holds under a name, or which inode is free -/
  | find (k : Option Key → Prog)
  | allocproc (k : Option Pid → Prog)
  | freeproc (q : Pid) (k : Prog)
  /-- the new process becomes RUNNABLE; until then nobody sees its fields -/
  | ready (q : Pid) (x : Proc) (k : Prog)

structure State where
  ft : FSlot → File
  ic : ISlot → Inode
  proc : Pid → Proc
  status : Pid → Status
  /-- the system call in progress -/
  code : Pid → Option Prog

/-! ## Code -/

/-- A piece of code that returns a value, as a function of what follows it. -/
abbrev Code (α : Type) := (α → Prog) → Prog

instance : Monad Code where
  pure a := fun k => k a
  bind m f := fun k => m fun a => f a k

namespace Code

def panic {α : Type} (e : Panic) : Code α := fun _ => .panic e
def filealloc : Code (Option FSlot) := Prog.filealloc
def filedup (f : FSlot) : Code Unit := fun k => .filedup f (k ())
def filedrop (f : FSlot) : Code (Option File) := Prog.filedrop f
def setPipe (f : FSlot) : Code Unit := fun k => .setPipe f (k ())
def setInode (f : FSlot) (ip : ISlot) : Code Unit := fun k => .setInode f ip (k ())
def iget (key : Key) : Code ISlot := Prog.iget key
def idup (ip : ISlot) : Code Unit := fun k => .idup ip (k ())
def iput (ip : ISlot) : Code Unit := fun k => .iput ip (k ())
def self : Code Proc := Prog.self
def setFd (fd : Fin NOFILE) (f : Option FSlot) : Code Unit := fun k => .setFd fd f (k ())
def setCwd (ip : Option ISlot) : Code Unit := fun k => .setCwd ip (k ())
def ask : Code Bool := Prog.ask
def find : Code (Option Key) := Prog.find
def allocproc : Code (Option Pid) := Prog.allocproc
def freeproc (q : Pid) : Code Unit := fun k => .freeproc q (k ())
def ready (q : Pid) (x : Proc) : Code Unit := fun k => .ready q x (k ())

end Code

open Code

/-! ## Files and paths -/

def fileclose (f : FSlot) : Code Unit := do
  let r ← filedrop f
  match r with
  | none => pure ()
  | some ff =>
    match ff.type with
    | .inode => iput ff.ip
    | .pipe => pure () -- `pipeclose`
    | .none => pure ()

def fdalloc (f : FSlot) : Code (Option (Fin NOFILE)) := do
  let x ← self
  match (List.finRange NOFILE).find? fun fd => (x.ofile fd).isNone with
  | none => pure none
  | some fd => do
    setFd fd (some f)
    pure (some fd)

/-- The inode that a path starts from. -/
def start (absolute : Bool) : Code ISlot :=
  if absolute then iget (ROOTDEV, ROOTINO)
  else do
    let x ← self
    match x.cwd with
    | none => panic .fault
    | some c => do
      idup c
      pure c

/-- The loop of `namex` with `n` path elements left. -/
def namexLoop (parent : Bool) : ISlot → Nat → Code (Option ISlot)
  | ip, 0 =>
    if parent then do
      iput ip
      pure none
    else pure (some ip)
  | ip, n + 1 => do
    let isdir ← ask
    if isdir = false then do
      iput ip
      pure none
    else if parent = true ∧ n = 0 then pure (some ip)
    else do
      let r ← find
      match r with
      | none => do
        iput ip
        pure none
      | some key => do
        let next ← iget key
        iput ip
        namexLoop parent next n

/-- A path: whether it starts with a slash, and how many elements it has. -/
structure Path where
  absolute : Bool
  elems : Nat

def namex (parent : Bool) (path : Path) : Code (Option ISlot) := do
  let ip ← start path.absolute
  namexLoop parent ip path.elems

/-- `create(path, T_FILE, 0, 0)` -/
def create (path : Path) : Code (Option ISlot) := do
  let r ← namex true path
  match r with
  | none => pure none
  | some dp => do
    let r ← find
    match r with
    | some key => do
      let ip ← iget key
      iput dp
      let isfile ← ask
      if isfile then pure (some ip)
      else do
        iput ip
        pure none
    | none => do
      -- `ialloc`, then `dirlink`, which finds the name missing as `dirlookup` did
      let r ← find
      match r with
      | none => panic .noInodes
      | some key => do
        let ip ← iget key
        iput dp
        pure (some ip)

/-! ## System calls -/

/-- `sys_open` with the inode. -/
def openFile (ip : ISlot) : Code Unit := do
  let r ← filealloc
  match r with
  | none => iput ip
  | some f => do
    let r ← fdalloc f
    match r with
    | none => do
      fileclose f
      iput ip
    | some _ => setInode f ip

def sysOpen (path : Path) (creat : Bool) : Code Unit := do
  if creat then do
    let r ← create path
    match r with
    | none => pure ()
    | some ip => openFile ip
  else do
    let r ← namex false path
    match r with
    | none => pure ()
    | some ip => do
      let isdir ← ask -- and not to be opened for reading only
      if isdir then iput ip
      else openFile ip

def sysDup (fd : Fin NOFILE) : Code Unit := do
  let x ← self
  match x.ofile fd with
  | none => pure ()
  | some f => do
    let r ← fdalloc f
    match r with
    | none => pure ()
    | some _ => filedup f

def sysClose (fd : Fin NOFILE) : Code Unit := do
  let x ← self
  match x.ofile fd with
  | none => pure ()
  | some f => do
    setFd fd none
    fileclose f

/-- `none` is `-1`. -/
def pipealloc : Code (Option (FSlot × FSlot)) := do
  let r ← filealloc
  match r with
  | none => pure none
  | some f0 => do
    let r ← filealloc
    match r with
    | none => do
      fileclose f0
      pure none
    | some f1 => do
      let page ← ask -- `kalloc`
      if page = false then do
        fileclose f0
        fileclose f1
        pure none
      else do
        setPipe f0
        setPipe f1
        pure (some (f0, f1))

def sysPipe : Code Unit := do
  let r ← pipealloc
  match r with
  | none => pure ()
  | some (rf, wf) => do
    let r ← fdalloc rf
    match r with
    | none => do
      fileclose rf
      fileclose wf
    | some fd0 => do
      let r ← fdalloc wf
      match r with
      | none => do
        setFd fd0 none
        fileclose rf
        fileclose wf
      | some _ => pure ()

/-- The loop of `fork` over the descriptors; `y` is the table of the new process. -/
def forkLoop (x : Proc) : Proc → List (Fin NOFILE) → Code Proc
  | y, [] => pure y
  | y, fd :: l =>
    match x.ofile fd with
    | none => forkLoop x y l
    | some f => do
      filedup f
      forkLoop x (y.setFd fd (some f)) l

def fork : Code Unit := do
  let r ← allocproc
  match r with
  | none => pure ()
  | some np => do
    let copied ← ask -- `copyuvm`
    if copied = false then freeproc np
    else do
      let x ← self
      let y ← forkLoop x .empty (List.finRange NOFILE)
      match x.cwd with
      | none => panic .fault
      | some c => do
        idup c
        ready np { y with cwd := some c }

def sysChdir (path : Path) : Code Unit := do
  let r ← namex false path
  match r with
  | none => pure ()
  | some ip => do
    let isdir ← ask
    if isdir = false then iput ip
    else do
      let x ← self
      match x.cwd with
      | none => panic .fault
      | some c => do
        iput c
        setCwd (some ip)

/-- `exec` drops the inode when it has read it or given up. -/
def exec (path : Path) : Code Unit := do
  let r ← namex false path
  match r with
  | none => pure ()
  | some ip => iput ip

/-- The loop of `exit`. -/
def exitLoop : List (Fin NOFILE) → Code Unit
  | [] => pure ()
  | fd :: l => do
    let x ← self
    match x.ofile fd with
    | none => exitLoop l
    | some f => do
      fileclose f
      setFd fd none
      exitLoop l

def exit (p : Pid) : Code Unit :=
  if p = initproc then panic .initExiting
  else do
    exitLoop (List.finRange NOFILE)
    let x ← self
    match x.cwd with
    | none => panic .fault
    | some c => do
      iput c
      setCwd none

inductive Call
  | sysOpen (path : Path) (creat : Bool)
  | dup (fd : Fin NOFILE)
  | close (fd : Fin NOFILE)
  | pipe
  | fork
  | chdir (path : Path)
  | exec (path : Path)
  | exit

/-- The program of a call of process `p`. -/
def Call.prog (p : Pid) : Call → Prog
  | .sysOpen path creat => Refs.sysOpen path creat fun _ => .done
  | .dup fd => sysDup fd fun _ => .done
  | .close fd => sysClose fd fun _ => .done
  | .pipe => sysPipe fun _ => .done
  | .fork => Refs.fork fun _ => .done
  | .chdir path => sysChdir path fun _ => .done
  | .exec path => Refs.exec path fun _ => .done
  | .exit => Refs.exit p fun _ => .gone

/-! ## The machine -/

namespace State

def setFile (s : State) (f : FSlot) (x : File) : State :=
  { s with ft := update s.ft f x }

def setI (s : State) (t : ISlot) (x : Inode) : State := { s with ic := update s.ic t x }

def setProc (s : State) (p : Pid) (x : Proc) : State :=
  { s with proc := update s.proc p x }

def setStatus (s : State) (p : Pid) (st : Status) : State :=
  { s with status := update s.status p st }

/-- Process `p` goes on with `c`. -/
def resume (s : State) (p : Pid) (c : Option Prog) : State :=
  { s with code := update s.code p c }

end State

/-- The answers that a step may ask for. -/
structure Answer where
  yes : Bool
  key : Option Key
  pid : Option Pid

/-- One step of process `p`. -/
def Prog.step (a : Answer) (p : Pid) (s : State) : Prog → Except Panic State
  | .done => .ok (s.resume p none)
  | .gone => .ok ((s.setStatus p .zombie).resume p none)
  | .panic e => .error e
  | .filealloc k =>
    match (List.finRange NFILE).find? fun f => (s.ft f).ref = 0 with
    | none => .ok (s.resume p (k none))
    | some f => .ok ((s.setFile f { s.ft f with ref := 1 }).resume p (k (some f)))
  | .filedup f k =>
    if (s.ft f).ref < 1 then .error .filedup
    else .ok ((s.setFile f { s.ft f with ref := (s.ft f).ref + 1 }).resume p k)
  | .filedrop f k =>
    if (s.ft f).ref < 1 then .error .fileclose
    else if 0 < (s.ft f).ref - 1 then
      .ok ((s.setFile f { s.ft f with ref := (s.ft f).ref - 1 }).resume p (k none))
    else .ok ((s.setFile f { s.ft f with ref := 0, type := .none }).resume p (k (some (s.ft f))))
  | .setPipe f k => .ok ((s.setFile f { s.ft f with type := .pipe }).resume p k)
  | .setInode f ip k => .ok ((s.setFile f { s.ft f with type := .inode, ip := ip }).resume p k)
  | .iget key k =>
    match (List.finRange NINODE).find? fun t => 0 < (s.ic t).ref ∧ (s.ic t).key = key with
    | some t => .ok ((s.setI t { s.ic t with ref := (s.ic t).ref + 1 }).resume p (k t))
    | none =>
      match (List.finRange NINODE).find? fun t => (s.ic t).ref = 0 with
      | none => .error .iget
      | some t => .ok ((s.setI t ⟨key, 1⟩).resume p (k t))
  | .idup t k => .ok ((s.setI t { s.ic t with ref := (s.ic t).ref + 1 }).resume p k)
  | .iput t k => .ok ((s.setI t { s.ic t with ref := (s.ic t).ref - 1 }).resume p k)
  | .self k => .ok (s.resume p (k (s.proc p)))
  | .setFd fd f k => .ok ((s.setProc p ((s.proc p).setFd fd f)).resume p k)
  | .setCwd ip k => .ok ((s.setProc p { s.proc p with cwd := ip }).resume p k)
  | .ask k => .ok (s.resume p (k a.yes))
  | .find k => .ok (s.resume p (k a.key))
  | .allocproc k =>
    match a.pid with
    | none => .ok (s.resume p (k none))
    | some q =>
      if s.status q = .unused then .ok ((s.setStatus q .embryo).resume p (k (some q)))
      else .ok (s.resume p (k none))
  | .freeproc q k => .ok ((s.setStatus q .unused).resume p k)
  | .ready q x k => .ok (((s.setProc q x).setStatus q .live).resume p k)

inductive Event
  /-- a process in user mode makes a system call -/
  | call (c : Call)
  /-- the next step of its system call -/
  | run (a : Answer)
  /-- its parent has waited for it -/
  | reap

/-- After `userinit`. -/
def boot : State where
  ft := fun _ => ⟨.none, 0, 0⟩
  ic := fun t => if t = 0 then ⟨(ROOTDEV, ROOTINO), 1⟩ else ⟨(0, 0), 0⟩
  proc := fun p => if p = initproc then ⟨some 0, fun _ => none⟩ else .empty
  status := fun p => if p = initproc then .live else .unused
  code := fun _ => none

def next (s : State) (p : Pid) : Event → Option (Except Panic State)
  | .call c => if s.status p = .live ∧ (s.code p).isNone then
      some (.ok (s.resume p (some (c.prog p)))) else none
  | .run a => (s.code p).map (Prog.step a p s)
  | .reap => if s.status p = .zombie then some (.ok (s.setStatus p .unused)) else none

/-- Any interleaving of the steps of all processes. -/
def machine : System State (Pid × Event) where
  init s := s = boot
  step s x s' := next s x.1 x.2 = some (.ok s')

end Xv6.Refs
