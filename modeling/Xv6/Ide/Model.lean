import Xv6.Lib.Run
import Xv6.Lib.System

/-!
# The disk driver: `ide.c`

The buffers that wait for the disk are a list through `qnext`.  `iderw` and `ideintr` hold `idelock`
except while `iderw` sleeps, so each of them runs atomically from its call, or from the end of a sleep,
to its next sleep or its return; the tests before `iderw` takes the lock read only the buffer, which
belongs to the caller.  The wakeups are not modelled: a sleeping process can go on at any time, and
looks at the flags again.

The ports are what is sent to the disk (`Cmd`) and what `idewait(1)` and `insl` find when the disk
interrupts.  The buffers of a machine are a finite type.
-/

namespace Xv6.Ide

open Function

abbrev FSSIZE : Nat := 2000
abbrev BSIZE : Nat := 512
abbrev SECTOR_SIZE : Nat := 512

structure Buf where
  busy : Bool
  valid : Bool
  dirty : Bool
  dev : Nat
  blockno : Nat
  data : List UInt8

inductive Panic
  /-- "idestart" -/
  | idestart
  /-- "incorrect blockno" -/
  | blockno
  /-- "iderw: buf not busy" -/
  | notBusy
  /-- "iderw: nothing to do" -/
  | nothing
  /-- "iderw: ide disk 1 not present" -/
  | noDisk1
  /-- the list does not end -/
  | hang
deriving DecidableEq, Repr

/-- What `idestart` sends: the drive, the first sector, how many, and the data of a write. -/
structure Cmd where
  drive : Nat
  sector : Nat
  count : Nat
  write : Option (List UInt8)

/-- A return of `iderw`: the number of its request, and the buffer at that time. -/
structure Return (β : Type) where
  request : Nat
  b : β
  buf : Buf

/-- `call p` is the buffer and the number of the request that the process `p` waits for.  The last four
fields are the history; the code does not look at it. -/
structure State (β π : Type) where
  buf : β → Buf
  qnext : β → Option β
  idequeue : Option β
  havedisk1 : Bool
  call : π → Option (β × Nat)
  issued : List (β × Cmd)
  submitted : List β
  completed : List β
  returned : List (Return β)

section
variable {β π : Type} [DecidableEq β] [DecidableEq π]

abbrev M (β π : Type) := StateT (State β π) (Except Panic)

/-- The commands of `idestart`. -/
def command (b : Buf) : Cmd :=
  let sectorPerBlock := BSIZE / SECTOR_SIZE
  { drive := b.dev % 2
    sector := b.blockno * sectorPerBlock
    count := sectorPerBlock
    write := if b.dirty then some b.data else none }

def idestart (b : Option β) : M β π Unit := do
  match b with
  | none => throw .idestart
  | some b =>
    let s ← get
    if (s.buf b).blockno ≥ FSSIZE then
      throw .blockno
    else
      set { s with issued := s.issued ++ [(b, command (s.buf b))] }

/-- `ok` is what `idewait(1)` finds, `data` what `insl` reads. -/
def ideintr (ok : Bool) (data : List UInt8) : M β π Unit := do
  let s ← get
  match s.idequeue with
  | none => return ()
  | some b =>
    let old := s.buf b
    let new := { old with
      data := if old.dirty = false ∧ ok then data else old.data
      valid := true
      dirty := false }
    set { s with
      idequeue := s.qnext b
      buf := update s.buf b new
      completed := s.completed ++ [b] }
    match s.qnext b with
    | none => return ()
    | some c => idestart (some c)

/-- `*pp`, where `pp` is `&idequeue` or the address of a `qnext`. -/
def deref (s : State β π) : Option β → Option β
  | none => s.idequeue
  | some a => s.qnext a

/-- `*pp = b` -/
def assign (s : State β π) (pp : Option β) (b : β) : State β π :=
  match pp with
  | none => { s with idequeue := some b }
  | some a => { s with qnext := update s.qnext a (some b) }

/-- `for(pp=&idequeue; *pp; pp=&(*pp)->qnext); *pp = b` -/
def append (b : β) : Nat → Option β → State β π → Except Panic (State β π)
  | 0, _, _ => .error .hang
  | n + 1, pp, s =>
    match deref s pp with
    | none => .ok (assign s pp b)
    | some a => append b n (some a) s

variable [Fintype β]

/-- `iderw` by the process `p`, up to its sleep: the flags are not yet those of a buffer that is
done. -/
def iderw (p : π) (b : β) : M β π Unit := do
  let s ← get
  if (s.buf b).busy = false then
    throw .notBusy
  else if (s.buf b).valid ∧ (s.buf b).dirty = false then
    throw .nothing
  else if (s.buf b).dev ≠ 0 ∧ s.havedisk1 = false then
    throw .noDisk1
  else
    match append b (Fintype.card β + 1) none { s with qnext := update s.qnext b none } with
    | .error e => throw e
    | .ok s =>
      set { s with
        call := update s.call p (some (b, s.submitted.length))
        submitted := s.submitted ++ [b] }
      if s.idequeue = some b then
        idestart (some b)

/-- The process `p` looks at the flags again. -/
def wake (p : π) (s : State β π) : State β π :=
  match s.call p with
  | none => s
  | some (b, k) =>
    if (s.buf b).valid ∧ (s.buf b).dirty = false then
      { s with call := update s.call p none, returned := s.returned ++ [⟨k, b, s.buf b⟩] }
    else s

/-! ## The system -/

inductive Act (β π : Type)
  /-- a call by a process that is not in one -/
  | iderw (p : π) (b : β)
  | wake (p : π)
  /-- an interrupt -/
  | intr (ok : Bool) (data : List UInt8)
  /-- the rest of the kernel changes a buffer that no process is in `iderw` with -/
  | change (b : β) (new : Buf)

/-- No process is in `iderw` with `b`. -/
def State.Idle (s : State β π) (b : β) : Prop := ∀ p k, s.call p ≠ some (b, k)

/-- The disk interrupts once for every request that was started, or when the queue is empty. -/
def State.MayInterrupt (s : State β π) : Prop :=
  s.completed.length < s.issued.length ∨ s.idequeue = none

inductive Step : State β π → Act β π → State β π → Prop
  | iderw {s s' : State β π} {p : π} {b : β} : s.call p = none → s.Idle b →
      Ide.iderw p b s = .ok ((), s') → Step s (.iderw p b) s'
  | wake {s : State β π} {p : π} : Step s (.wake p) (Ide.wake p s)
  | intr {s s' : State β π} {ok : Bool} {data : List UInt8} : s.MayInterrupt →
      ideintr ok data s = .ok ((), s') → Step s (.intr ok data) s'
  | change {s : State β π} {b : β} {new : Buf} : s.Idle b →
      Step s (.change b new) { s with buf := update s.buf b new }

/-- The disk is idle, the buffers are any, `havedisk1` is what `ideinit` found. -/
def machine : System (State β π) (Act β π) where
  init s := s.idequeue = none ∧ (∀ p, s.call p = none) ∧ s.issued = [] ∧ s.submitted = [] ∧
    s.completed = [] ∧ s.returned = []
  step := Step

end

end Xv6.Ide
