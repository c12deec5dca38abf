import Xv6.Lib.Dlist
import Xv6.Lib.System
import Xv6.Log.Cache

/-!
# The buffer cache with its links (`bio.c`)

The buffers hang on a circular list through `prev` and `next`, with `bcache.head` as the head
node.  `bget` scans it forwards for the block and backwards for a buffer to recycle; `brelse`
moves the buffer to the front.  The data of the buffers is left out: no decision here looks at
it.

A process runs atomically between its sleeps.  One that finds the block it wants BUSY sleeps and
starts its scan anew when it goes on, which it may at any time.  `iderw` sleeps until the disk is
done, which sets `B_VALID` and clears `B_DIRTY`.
-/

namespace Xv6.Bio

open Function
open Log (NBUF BufId)

/-- A `struct buf *`: a buffer, or `&bcache.head`. -/
abbrev Node := Option BufId

/-- `struct buf` without its links and data. -/
structure Buf where
  dev : BitVec 32 := 0
  blockno : BitVec 32 := 0
  busy : Bool := false
  valid : Bool := false
  dirty : Bool := false

structure Bcache where
  buf : BufId → Buf
  next : Node → Node
  prev : Node → Node

inductive Panic
  /-- `"bget: no buffers"` -/
  | noBuffers
  /-- `"bwrite"` -/
  | bwrite
  /-- `"brelse"` -/
  | brelse
  /-- a scan does not come back to the head -/
  | hang
deriving DecidableEq, Repr

/-- The device number of a buffer that caches nothing. -/
abbrev NODEV : BitVec 32 := -1

namespace Bcache

def modify (c : Bcache) (b : BufId) (f : Buf → Buf) : Bcache :=
  { c with buf := update c.buf b (f (c.buf b)) }

/-- `b->next = head.next; b->prev = &head; head.next->prev = b; head.next = b` -/
def pushFront (c : Bcache) (b : BufId) : Bcache :=
  { c with
    next := update (update c.next (some b) (c.next none)) none (some b)
    prev := update (update c.prev (some b) none) (c.next none) (some b) }

/-- `b->next->prev = b->prev; b->prev->next = b->next` -/
def unlink (c : Bcache) (b : BufId) : Bcache :=
  { c with
    next := update c.next (c.prev (some b)) (c.next (some b))
    prev := update c.prev (c.next (some b)) (c.prev (some b)) }

/-- `binit`, from cleared memory. -/
def binit : Bcache :=
  (List.finRange NBUF).foldl (fun c b => (c.pushFront b).modify b fun u => { u with dev := NODEV })
    ⟨fun _ => {}, fun _ => none, fun _ => none⟩

/-- A test of the buffers, on nodes. -/
def test (c : Bcache) (f : Buf → Bool) : Node → Bool
  | none => false
  | some b => f (c.buf b)

def caches (dev blockno : BitVec 32) (u : Buf) : Bool := u.dev = dev ∧ u.blockno = blockno

def clean (u : Buf) : Bool := u.busy = false ∧ u.dirty = false

/-- `bget` from its `loop` label: the buffer, or `none` for a sleep. -/
def bget (dev blockno : BitVec 32) (c : Bcache) : Except Panic (Option BufId × Bcache) :=
  match seek c.next none (c.test (caches dev blockno)) (NBUF + 1) (c.next none) with
  | some (some (some b)) =>
    if (c.buf b).busy = false then .ok (some b, c.modify b fun u => { u with busy := true })
    else .ok (none, c)
  | some none =>
    match seek c.prev none (c.test clean) (NBUF + 1) (c.prev none) with
    | some (some (some b)) =>
      .ok (some b, c.modify b fun _ =>
        { dev := dev, blockno := blockno, busy := true, valid := false, dirty := false })
    | some none => .error .noBuffers
    | _ => .error .hang
  | _ => .error .hang

/-- `bwrite` up to its `iderw`. -/
def bwrite (b : BufId) (c : Bcache) : Except Panic Bcache :=
  if (c.buf b).busy = false then .error .bwrite
  else .ok (c.modify b fun u => { u with dirty := true })

/-- What `log_write` does to the buffer. -/
def logWrite (b : BufId) (c : Bcache) : Bcache := c.modify b fun u => { u with dirty := true }

/-- The disk is done with the buffer. -/
def iderw (b : BufId) (c : Bcache) : Bcache :=
  c.modify b fun u => { u with valid := true, dirty := false }

def brelse (b : BufId) (c : Bcache) : Except Panic Bcache :=
  if (c.buf b).busy = false then .error .brelse
  else .ok (((c.unlink b).pushFront b).modify b fun u => { u with busy := false })

end Bcache

/-! ## Any number of processes -/

/-- Where a process stands. -/
inductive Pc
  | idle
  /-- asleep in `bget` -/
  | wants (dev blockno : BitVec 32)
  /-- asleep in `iderw` -/
  | disk (b : BufId)

/-- `held p` are the buffers that `bread` has given to the process `p` and that it has not yet
passed to `brelse`. -/
structure State where
  cache : Bcache
  pc : Nat → Pc
  held : Nat → List BufId

inductive Act
  | bread (p : Nat) (dev blockno : BitVec 32)
  /-- back from a sleep in `bget` -/
  | resume (p : Nat)
  /-- the disk is done -/
  | diskDone (p : Nat)
  | bwrite (p : Nat) (b : BufId)
  | logWrite (p : Nat) (b : BufId)
  | brelse (p : Nat) (b : BufId)

namespace State

def setPc (s : State) (p : Nat) (pc : Pc) : State := { s with pc := update s.pc p pc }

/-- `bread` from the scan of `bget` on. -/
def bread (s : State) (p : Nat) (dev blockno : BitVec 32) : Except Panic State := do
  let (r, c) ← s.cache.bget dev blockno
  match r with
  | none => .ok (s.setPc p (.wants dev blockno))
  | some b =>
    let held := update s.held p (b :: s.held p)
    .ok ({ s with cache := c, held := held }.setPc p
      (if (c.buf b).valid then .idle else .disk b))

end State

/-- The steps of all processes.  `bwrite`, `log_write` and `brelse` are given buffers that the
process holds. -/
inductive Step : State → Act → State → Prop
  | bread {s s' : State} {p : Nat} {dev blockno : BitVec 32} : s.pc p = .idle →
      s.bread p dev blockno = .ok s' → Step s (.bread p dev blockno) s'
  | resume {s s' : State} {p : Nat} {dev blockno : BitVec 32} : s.pc p = .wants dev blockno →
      s.bread p dev blockno = .ok s' → Step s (.resume p) s'
  | diskDone {s : State} {p : Nat} {b : BufId} : s.pc p = .disk b →
      Step s (.diskDone p) ({ s with cache := s.cache.iderw b }.setPc p .idle)
  | bwrite {s : State} {p : Nat} {b : BufId} {c : Bcache} : s.pc p = .idle → b ∈ s.held p →
      s.cache.bwrite b = .ok c → Step s (.bwrite p b) ({ s with cache := c }.setPc p (.disk b))
  | logWrite {s : State} {p : Nat} {b : BufId} : s.pc p = .idle → b ∈ s.held p →
      Step s (.logWrite p b) { s with cache := s.cache.logWrite b }
  | brelse {s : State} {p : Nat} {b : BufId} {c : Bcache} : s.pc p = .idle → b ∈ s.held p →
      s.cache.brelse b = .ok c →
      Step s (.brelse p b)
        { s with cache := c, held := update s.held p ((s.held p).erase b) }

def machine : System State Act where
  init s := s.cache = .binit ∧ (∀ p, s.pc p = .idle) ∧ ∀ p, s.held p = []
  step := Step

end Xv6.Bio
