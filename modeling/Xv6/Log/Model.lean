import Xv6.Lib.System
import Xv6.Log.Cache

/-!
# The log (`log.c`)

Processes run file-system operations (`begin_op`, then modified buffers handed to
`log_write`, then `end_op`), others read blocks, and the process whose `end_op`
leaves no operation outstanding commits.  Every step of the model is a stretch of
one process in which it neither sleeps nor gives up a lock, so `log_write` takes two:
its panic tests come before `log.lock` is taken.  Each step writes at most one disk
block.  A crash can come between any two steps and leaves only the disk.

A process that panics takes no more steps; the others may go on.
-/

namespace Xv6.Log

/-- The log's part of the disk, from the superblock: the header is block `start`, the copies are
the blocks after it.  `mkfs` makes `nlog = LOGSIZE`. -/
structure Area where
  start : Nat
  size : Nat
  room : LOGSIZE ≤ size

/-- The area that `mkfs` lays out. -/
def Area.mkfs : Area := ⟨2, LOGSIZE, Nat.le_refl _⟩

/-- Blocks outside the log. -/
def Area.Home (A : Area) (b : Nat) : Prop := b < A.start ∨ A.start + A.size ≤ b

instance (A : Area) (b : Nat) : Decidable (A.Home b) := inferInstanceAs (Decidable (_ ∨ _))

/-! ## The header block -/

/-- The `j`-th `int` of a block. -/
def Block.word (v : Block) (j : Nat) : Nat := if h : j < 128 then v ⟨j, h⟩ else 0

/-- `lh->block[0 .. lh->n)`, as `read_head` copies it. -/
def Block.header (v : Block) : List Nat := (List.range (v.word 0)).map fun i => v.word (i + 1)

/-- The stores of `write_head` into the buffer. -/
def Block.putHeader (lh : List Nat) (v : Block) : Block := fun j =>
  if j = 0 then lh.length else (lh[j.val - 1]?).getD (v j)

theorem header_putHeader {lh : List Nat} (h : lh.length < 128) (v : Block) :
    (v.putHeader lh).header = lh := by
  have h0 : (v.putHeader lh).word 0 = lh.length := by
    simp [Block.word, Block.putHeader]
  unfold Block.header
  rw [h0]
  refine List.ext_getElem (by simp) fun i _ hi => ?_
  have hi' : i + 1 < 128 := by omega
  simp [Block.word, Block.putHeader, hi', hi, Fin.ext_iff]

/-! ## Where a process stands -/

/-- The two copying loops: `write_log` and `install_trans`. -/
inductive Dir
  | toLog | toHome
deriving DecidableEq, Repr

/-- The points of `commit` and `recover_from_log`. -/
inductive Pt
  /-- `read_head` -/
  | readHead
  | readHeadGot (i : BufId)
  /-- the test of a copying loop -/
  | top (dir : Dir) (tail : Nat)
  /-- the log block is held -/
  | gotLog (dir : Dir) (tail : Nat) (i : BufId)
  /-- the log block and the home block are held -/
  | gotBoth (dir : Dir) (tail : Nat) (i j : BufId)
  /-- the copy is on the disk -/
  | copied (dir : Dir) (tail : Nat) (i j : BufId)
  /-- `write_head`; `erase` for the second one, after `log.lh.n = 0` -/
  | head (erase : Bool)
  | headGot (erase : Bool) (i : BufId)
  | headDone (erase : Bool) (i : BufId)
  | finish
deriving DecidableEq, Repr

inductive Pc
  /-- outside of operations -/
  | user
  /-- between `begin_op` and `end_op` -/
  | op
  /-- it has changed the data of a buffer and calls `log_write` -/
  | stored (i : BufId)
  /-- in `log_write`, past the panic tests -/
  | checked (i : BufId)
  | commit (p : Pt)
deriving DecidableEq, Repr

/-- `log.lh` is kept as the entries `block[0 .. n)`.  `up` is false until `initlog`, run by
process 0, has returned. -/
structure State where
  disk : Disk
  cache : Bcache
  lh : List Nat
  outstanding : Nat
  committing : Bool
  pc : Slot → Pc
  up : Bool

inductive Act
  | beginOp (t : Slot)
  | bread (t : Slot) (b : Nat)
  /-- the caller changes the data of a buffer it holds -/
  | store (t : Slot) (i : BufId) (v : Block)
  /-- the panic tests of `log_write` -/
  | logCheck (t : Slot)
  /-- the rest of `log_write`, under `log.lock` -/
  | logAppend (t : Slot)
  | brelse (t : Slot) (i : BufId)
  | endOp (t : Slot)
  /-- the next step of `commit` or `recover_from_log` -/
  | next (t : Slot)
  | crash

namespace State

def setPc (s : State) (t : Slot) (p : Pc) : State := { s with pc := Function.update s.pc t p }

/-- Power on with disk `d`: memory is as `binit` and the loader leave it, and process 0 is about
to run `initlog`. -/
def boot (d : Disk) : State where
  disk := d
  cache := .init
  lh := []
  outstanding := 0
  committing := false
  pc := Function.update (fun _ => .user) 0 (.commit .readHead)
  up := false

variable (A : Area) (s : State)

def beginOp (t : Slot) : Except Stop State :=
  if s.pc t = .user ∧ s.up then
    if s.committing then .error .waits
    else if s.lh.length + (s.outstanding + 1) * MAXOPBLOCKS > LOGSIZE then .error .waits
    else .ok ({ s with outstanding := s.outstanding + 1 }.setPc t .op)
  else .error .waits

/-- `bread` by an operation or by a reader outside of operations. -/
def bread (t : Slot) (b : Nat) : Except Stop State :=
  if (s.pc t = .user ∨ s.pc t = .op) ∧ s.up then do
    let (_, c) ← s.cache.bread s.disk t b
    return { s with cache := c }
  else .error .waits

/-- Only blocks outside of the log are changed. -/
def store (t : Slot) (i : BufId) (v : Block) : Except Stop State :=
  if s.pc t = .op ∧ (s.cache.buf i).busy = some t ∧ ∃ b ∈ (s.cache.buf i).blockno, A.Home b then
    .ok ({ s with cache := s.cache.modify i fun u => { u with data := v } }.setPc t (.stored i))
  else .error .waits

def logCheck (t : Slot) : Except Stop State :=
  match s.pc t with
  | .stored i =>
    if LOGSIZE ≤ s.lh.length ∨ A.size - 1 ≤ s.lh.length then .error (.panics .tooBig)
    else if s.outstanding < 1 then .error (.panics .outsideTrans)
    else .ok (s.setPc t (.checked i))
  | _ => .error .waits

/-- `log.lh.block[i] = b->blockno` at the first equal entry, or one past the last. -/
def absorb (lh : List Nat) (b : Nat) : List Nat := if b ∈ lh then lh else lh ++ [b]

def logAppend (t : Slot) : Except Stop State :=
  match s.pc t with
  | .checked i =>
    match (s.cache.buf i).blockno with
    | some b => .ok (State.setPc { s with
        lh := absorb s.lh b
        cache := s.cache.modify i fun u => { u with dirty := true } } t .op)
    | none => .error .waits
  | _ => .error .waits

def brelse (t : Slot) (i : BufId) : Except Stop State :=
  if (s.pc t = .user ∨ s.pc t = .op) ∧ (s.cache.buf i).busy = some t then do
    let c ← s.cache.brelse i
    return { s with cache := c }
  else .error .waits

/-- `end_op` up to the call of `commit`, and the test at the start of `commit`. -/
def endOp (t : Slot) : Except Stop State :=
  if s.pc t = .op then
    if s.committing then .error (.panics .committing)
    else if s.outstanding - 1 = 0 then
      .ok ({ s with outstanding := 0, committing := true }.setPc t
        (.commit (if 0 < s.lh.length then .top .toLog 0 else .finish)))
    else .ok ({ s with outstanding := s.outstanding - 1 }.setPc t .user)
  else .error .waits

/-- One step of `commit` or `recover_from_log` from point `p`. -/
def commitStep (t : Slot) (p : Pt) : Except Stop State :=
  match p with
  | .readHead => do
    let (i, c) ← s.cache.bread s.disk t A.start
    return { s with cache := c }.setPc t (.commit (.readHeadGot i))
  | .readHeadGot i => do
    let c ← s.cache.brelse i
    return { s with cache := c, lh := (s.cache.buf i).data.header }.setPc t
      (.commit (.top .toHome 0))
  | .top dir tail =>
    if tail < s.lh.length then do
      let (i, c) ← s.cache.bread s.disk t (A.start + tail + 1)
      return { s with cache := c }.setPc t (.commit (.gotLog dir tail i))
    else
      match dir with
      | .toLog => .ok (s.setPc t (.commit (.head false)))
      | .toHome => .ok ({ s with lh := [] }.setPc t (.commit (.head true)))
  | .gotLog dir tail i =>
    match s.lh[tail]? with
    | some b => do
      let (j, c) ← s.cache.bread s.disk t b
      return { s with cache := c }.setPc t (.commit (.gotBoth dir tail i j))
    | none => .error .waits
  | .gotBoth .toLog tail i j => do
    let c := s.cache.modify i fun u => { u with data := (s.cache.buf j).data }
    let (d, c) ← c.bwrite s.disk i
    return { s with disk := d, cache := c }.setPc t (.commit (.copied .toLog tail i j))
  | .gotBoth .toHome tail i j => do
    let c := s.cache.modify j fun u => { u with data := (s.cache.buf i).data }
    let (d, c) ← c.bwrite s.disk j
    return { s with disk := d, cache := c }.setPc t (.commit (.copied .toHome tail i j))
  | .copied .toLog tail i j => do
    let c ← s.cache.brelse j
    let c ← c.brelse i
    return { s with cache := c }.setPc t (.commit (.top .toLog (tail + 1)))
  | .copied .toHome tail i j => do
    let c ← s.cache.brelse i
    let c ← c.brelse j
    return { s with cache := c }.setPc t (.commit (.top .toHome (tail + 1)))
  | .head erase => do
    let (i, c) ← s.cache.bread s.disk t A.start
    return { s with cache := c }.setPc t (.commit (.headGot erase i))
  | .headGot erase i => do
    let c := s.cache.modify i fun u => { u with data := u.data.putHeader s.lh }
    let (d, c) ← c.bwrite s.disk i
    return { s with disk := d, cache := c }.setPc t (.commit (.headDone erase i))
  | .headDone erase i => do
    let c ← s.cache.brelse i
    return { s with cache := c }.setPc t (.commit (if erase then .finish else .top .toHome 0))
  | .finish => .ok ({ s with committing := false, up := true }.setPc t .user)

def next (t : Slot) : Except Stop State :=
  match s.pc t with
  | .commit p => s.commitStep A t p
  | _ => .error .waits

def exec : Act → Except Stop State
  | .beginOp t => s.beginOp t
  | .bread t b => s.bread t b
  | .store t i v => s.store A t i v
  | .logCheck t => s.logCheck A t
  | .logAppend t => s.logAppend t
  | .brelse t i => s.brelse t i
  | .endOp t => s.endOp t
  | .next t => s.next A t
  | .crash => .ok (boot s.disk)

end State

/-- The machine from power on with disk `d₀`. -/
def machine (A : Area) (d₀ : Disk) : System State Act where
  init s := s = .boot d₀
  step s a s' := s.exec A a = .ok s'

end Xv6.Log
