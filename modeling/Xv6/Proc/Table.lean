import Xv6.Param
import Xv6.Lib.Chain

/-!
# The process table and its state lists (`proc.h`, `proc.c`)

The `CS333_P3P4` build threads every slot of `ptable.proc` on one of the lists
of `struct StateLists` through the slot's own `next` field.  `PTable` holds the
slots, the links (`p->next` is the map `next`), the head and tail pointers of
every list, and the globals that the list code reads.

A null pointer is `none`.  Reading through a null pointer is `Panic.fault`; a
walk that has visited `NPROC` cells without meeting null is `Panic.hang`.
-/

namespace Xv6.Procs

open Function

abbrev NPROC : Nat := 64
def maxPrio : Nat := 6
def ticksToPromote : BitVec 32 := 800
def maxBudget : BitVec 32 := 200

abbrev Slot := Fin NPROC

/-- `enum procstate` -/
inductive ProcState
  | unused | embryo | sleeping | runnable | running | zombie
deriving DecidableEq, Repr

/-- What `p->chan` points at: nothing, a slot of the table (`wait` sleeps on the
caller), or some other kernel object. -/
inductive Chan
  | null
  | proc (p : Slot)
  | addr (a : Nat)
deriving DecidableEq, Repr

/-- A `struct proc *` used as a sleep channel. -/
def Chan.ofProc : Option Slot → Chan
  | none => .null
  | some p => .proc p

/-- `struct proc`, without its memory image, trap frame, files and `next`.
`name` is the string up to its terminator; `budget` is an `int`. -/
structure Proc where
  state : ProcState := .unused
  pid : BitVec 32 := 0
  parent : Option Slot := none
  chan : Chan := .null
  killed : Bool := false
  name : List UInt8 := []
  startTicks : BitVec 32 := 0
  uid : BitVec 32 := 0
  gid : BitVec 32 := 0
  cpuTicksTotal : BitVec 32 := 0
  cpuTicksIn : BitVec 32 := 0
  priority : Nat := 0
  budget : BitVec 32 := 0
deriving DecidableEq, Repr

/-- The lists of `struct StateLists`; `ready i` is `ready[i]`. -/
inductive ListId
  | free | embryo | ready (i : Nat) | sleep | running | zombie
deriving DecidableEq, Repr

/-- The state of the processes on a list. -/
def ListId.state : ListId → ProcState
  | free => .unused
  | embryo => .embryo
  | ready _ => .runnable
  | sleep => .sleeping
  | running => .running
  | zombie => .zombie

/-- The globals beside the table. -/
structure Globals where
  promoteAtTime : BitVec 32
  initproc : Option Slot
  nextpid : BitVec 32
  ticks : BitVec 32
deriving DecidableEq, Repr

structure PTable extends Globals where
  proc : Slot → Proc
  next : Slot → Option Slot
  head : ListId → Option Slot
  tail : ListId → Option Slot

/-- Ways a kernel function does not come back. -/
inductive Panic
  /-- a null pointer is followed -/
  | fault
  /-- a list walk does not end -/
  | hang
  /-- `panic(err)` in `changeState` -/
  | changeState (err : String)
  /-- `panic(states[p->state])` in `assertState` -/
  | assertState (state : ProcState)
  | assertPrio
  /-- `rc == -1` from a list function called directly -/
  | stateList (err : String)
  | schedRunning
  | initExiting
deriving DecidableEq, Repr

namespace PTable

/-- Write fields of `*p`. -/
def modify (s : PTable) (p : Slot) (f : Proc → Proc) : PTable :=
  { s with proc := update s.proc p (f (s.proc p)) }

@[simp] theorem modify_next (s : PTable) (p : Slot) (f : Proc → Proc) :
    (s.modify p f).next = s.next := rfl

@[simp] theorem modify_head (s : PTable) (p : Slot) (f : Proc → Proc) :
    (s.modify p f).head = s.head := rfl

@[simp] theorem modify_toGlobals (s : PTable) (p : Slot) (f : Proc → Proc) :
    (s.modify p f).toGlobals = s.toGlobals := rfl

/-! ## The list functions -/

/-- Append `p`; the result is always `0`. -/
def stateListAdd (id : ListId) (p : Slot) (s : PTable) : Except Panic (Int × PTable) :=
  match s.head id with
  | none =>
    .ok (0, { s with
      head := update s.head id (some p)
      tail := update s.tail id (some p)
      next := update s.next p none })
  | some _ =>
    match s.tail id with
    | none => .error .fault
    | some t =>
      .ok (0, { s with
        next := update (update s.next t (some p)) p none
        tail := update s.tail id (some p) })

/-- `while(current)`: the first cell equal to `p` and the one before it. -/
def removeWalk (s : PTable) (p : Slot) :
    Nat → Option Slot → Option Slot → Except Panic (Option Slot × Option Slot)
  | _, none, previous => .ok (none, previous)
  | 0, some c, previous => if c = p then .ok (some c, previous) else .error .hang
  | n + 1, some c, previous =>
    if c = p then .ok (some c, previous) else removeWalk s p n (s.next c) (some c)

/-- Take `p` off the list, or return `-1`.  On the head path `p->next` and the
tail pointer are left as they are. -/
def stateListRemove (id : ListId) (p : Slot) (s : PTable) : Except Panic (Int × PTable) :=
  match s.head id, s.tail id with
  | some h, some t =>
    if h = p then .ok (0, { s with head := update s.head id (s.next h) })
    else
      match removeWalk s p NPROC (some h) none with
      | .error e => .error e
      | .ok (none, _) => .ok (-1, s)
      | .ok (some _, none) => .error .fault
      | .ok (some c, some q) =>
        if c = t then
          .ok (0, { s with
            tail := update s.tail id (some q)
            next := update (update s.next q none) p none })
        else
          .ok (0, { s with
            next := update (update s.next q (s.next c)) p none })
  | _, _ => .ok (-1, s)

def assertState (p : Slot) (state : ProcState) (s : PTable) : Except Panic Unit :=
  if (s.proc p).state ≠ state then .error (.assertState (s.proc p).state) else .ok ()

def assertPrio (p : Slot) (prio : Nat) (s : PTable) : Except Panic Unit :=
  if (s.proc p).priority ≠ prio then .error .assertPrio else .ok ()

/-- Remove from the source list, assert the old state, set the new one, append. -/
def changeState (src dst : ListId) (p : Slot) (stateRemove stateAdd : ProcState) (err : String)
    (s : PTable) : Except Panic PTable := do
  let (rc, s) ← stateListRemove src p s
  if rc = -1 then .error (.changeState err)
  else
    assertState p stateRemove s
    let s := s.modify p fun q => { q with state := stateAdd }
    let (rc, s) ← stateListAdd dst p s
    if rc = -1 then .error (.changeState err) else .ok s

def initProcessLists (s : PTable) : PTable :=
  { s with head := fun _ => none, tail := fun _ => none }

/-- Put every slot on the free list, in table order. -/
def initFreeList (s : PTable) : Except Panic PTable :=
  (List.finRange NPROC).foldlM (fun s p => do
    let (_, s) ← stateListAdd .free p (s.modify p fun q => { q with state := .unused })
    .ok s) s

end PTable

end Xv6.Procs
