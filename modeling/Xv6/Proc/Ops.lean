import Xv6.Proc.Table

/-!
# The operations of `proc.c` under `ptable.lock`

Each definition is the body of a C function between `acquire(&ptable.lock)` and
the release (or the jump into `sched`), as a function of the table.  A function
that drops the lock in the middle is one definition per critical section.
`proc` is the calling process.  The loops `for(p = *head; p != 0; p = p->next)`
are `forEach`, reading `next` after the body has run, as the C loops do.
-/

namespace Xv6.Procs

namespace PTable

/-- `for(p = head; p != 0; p = p->next) body` over one of the state lists. -/
def forList {β : Type} (id : ListId) (body : Slot → PTable → Except Panic (Option β × PTable))
    (s : PTable) : Except Panic (Option β × PTable) :=
  forEach .hang PTable.next body NPROC (s.head id) s

/-- `for(i=0; i < maxPrio+1; i++) body`. -/
def forReady {β σ : Type} (body : Nat → σ → Except Panic (Option β × σ)) (s : σ) :
    Except Panic (Option β × σ) :=
  forIn body (List.range (maxPrio + 1)) s

/-! ## allocproc, userinit, fork -/

/-- `allocproc`, first critical section: take the head of the free list. -/
def allocproc (s : PTable) : Except Panic (Option Slot × PTable) :=
  match s.head .free with
  | none => .ok (none, s)
  | some p => do
    let s ← changeState .free .embryo p .unused .embryo "allocproc()" s
    .ok (some p, { s.modify p (fun q => { q with pid := s.nextpid }) with
      nextpid := s.nextpid + 1 })

/-- `allocproc` when `kalloc` fails: give the slot back. -/
def allocprocFail (p : Slot) (s : PTable) : Except Panic PTable :=
  changeState .embryo .free p .embryo .unused "allocproc()" s

/-- `allocproc` after `kalloc` (no lock held): the fields of the new process. -/
def allocprocInit (p : Slot) (s : PTable) : PTable :=
  s.modify p fun q => { q with
    startTicks := s.ticks
    cpuTicksTotal := 0
    cpuTicksIn := 0
    priority := 0
    budget := maxBudget }

def initcode : List UInt8 := "initcode".toUTF8.data.toList

/-- The last block of `userinit`: the first process becomes the whole of `ready[0]`. -/
def userinitReady (p : Slot) (s : PTable) : Except Panic PTable := do
  let (rc, s) ← stateListRemove .embryo p s
  if rc = -1 then
    .error (.stateList "Error: Process to be removed from EMBRYO list does not exist. (proc.c: userinit(): Line 313")
  else
    assertState p .embryo s
    let s := s.modify p fun q => { q with state := .runnable }
    .ok { s with
      head := Function.update s.head (.ready 0) (some p)
      tail := Function.update s.tail (.ready 0) (some p)
      next := Function.update s.next p none }

/-- `userinit`: build the lists and put the first process on `ready[0]`. -/
def userinit (s : PTable) : Except Panic PTable := do
  let s ← initFreeList (initProcessLists s)
  let s := { s with promoteAtTime := s.ticks + ticksToPromote }
  match ← allocproc s with
  | (none, _) => .error .fault
  | (some p, s) =>
    let s := allocprocInit p s
    let s := { s with initproc := some p }
    let s := s.modify p fun q => { q with name := initcode, uid := 0, gid := 0 }
    userinitReady p s

/-- `fork` when `copyuvm` fails. -/
def forkFail (np : Slot) (s : PTable) : Except Panic PTable :=
  changeState .embryo .free np .embryo .unused "fork()" s

/-- `fork` after `copyuvm` (no lock held): copy the parent's fields. -/
def forkCopy (proc np : Slot) (s : PTable) : PTable :=
  s.modify np fun q => { q with
    parent := some proc
    uid := (s.proc proc).uid
    gid := (s.proc proc).gid
    name := (s.proc proc).name }

/-- `fork`, last critical section. -/
def forkReady (np : Slot) (s : PTable) : Except Panic PTable :=
  changeState .embryo (.ready 0) np .embryo .runnable "fork()" s

/-! ## sched, yield, sleep, wakeup -/

/-- `sched` up to `swtch`; the caller has left the running list. -/
def sched (proc : Slot) (s : PTable) : Except Panic PTable :=
  if (s.proc proc).state = .running then .error .schedRunning
  else .ok (s.modify proc fun q => { q with
    cpuTicksTotal := q.cpuTicksTotal + (s.ticks - q.cpuTicksIn) })

/-- The budget charge of `yield` and `sleep`: a used-up budget is refilled one level down. -/
def charge (ticks : BitVec 32) (q : Proc) : Proc :=
  let budget := q.budget - (ticks - q.cpuTicksIn)
  if budget.toInt ≤ 0 then
    { q with
      budget := maxBudget
      priority := if q.priority < maxPrio then q.priority + 1 else q.priority }
  else { q with budget := budget }

def yield (proc : Slot) (s : PTable) : Except Panic PTable := do
  let s := s.modify proc (charge s.ticks)
  let s ← changeState .running (.ready (s.proc proc).priority) proc .running .runnable "yield()" s
  sched proc s

/-- `sleep` up to `sched`. -/
def sleep (proc : Slot) (chan : Chan) (s : PTable) : Except Panic PTable := do
  let s := s.modify proc fun q => { q with chan := chan }
  let s := s.modify proc (charge s.ticks)
  let s ← changeState .running .sleep proc .running .sleeping "sleep()" s
  sched proc s

/-- `sleep` after `sched` returns. -/
def sleepReturn (proc : Slot) (s : PTable) : PTable :=
  s.modify proc fun q => { q with chan := .null }

def wakeup1 (chan : Chan) (s : PTable) : Except Panic PTable := do
  let (_, s) ← forList (β := Unit) .sleep (fun p s =>
    if (s.proc p).chan = chan then do
      let s ← changeState .sleep (.ready (s.proc p).priority) p .sleeping .runnable "wakeup1()" s
      .ok (none, s)
    else .ok (none, s)) s
  .ok s

def wakeup (chan : Chan) (s : PTable) : Except Panic PTable := wakeup1 chan s

/-! ## kill and exit -/

/-- The loop body of the searches of `kill` and `exit`: write the fields of a slot that is
`hit`, then walk the list `second` with a body that acts where it meets the slot, and that
returns `rc` in its first iteration. -/
def searchBody (hit : Proc → Bool) (f : Globals → Proc → Proc) (second : ListId)
    (act : Slot → PTable → Except Panic PTable) (rc : Int) (p : Slot) (s : PTable) :
    Except Panic (Option Int × PTable) :=
  if hit (s.proc p) then
    let s := s.modify p (f s.toGlobals)
    forList second (fun q s =>
      if p = q then do
        let s ← act p s
        .ok (some rc, s)
      else .ok (some rc, s)) s
  else .ok (none, s)

/-- A search that fell off the end of its loop returns `r`. -/
def orElse {σ : Type} (r : Int) : Option Int × σ → Int × σ
  | (some v, s) => (v, s)
  | (none, s) => (r, s)

/-- The loop body of `killSearchAll` and `killSearchReady`. -/
def killBody (pid : BitVec 32) : Slot → PTable → Except Panic (Option Int × PTable) :=
  searchBody (fun q => q.pid = pid) (fun _ q => { q with killed := true }) .sleep
    (fun p s => changeState .sleep (.ready 0) p .sleeping .runnable "killSearchAll()" s) 0

def killSearchAll (id : ListId) (pid : BitVec 32) (s : PTable) : Except Panic (Int × PTable) :=
  (forList id (killBody pid) s).map (orElse (-1))

def killSearchReady (pid : BitVec 32) (s : PTable) : Except Panic (Int × PTable) :=
  (forReady (fun i s => forList (.ready i) (killBody pid) s) s).map (orElse (-1))

def kill (pid : BitVec 32) (s : PTable) : Except Panic (Int × PTable) := do
  let (rc, s) ← killSearchAll .embryo pid s
  let (rc, s) ← (if rc = -1 then killSearchReady pid s else .ok (rc, s))
  let (rc, s) ← (if rc = -1 then killSearchAll .sleep pid s else .ok (rc, s))
  let (rc, s) ← (if rc = -1 then killSearchAll .running pid s else .ok (rc, s))
  if rc = -1 then killSearchAll .zombie pid s else .ok (rc, s)

/-- The loop body of `exitSearchAll` and `exitSearchReady`. -/
def exitBody (pExit : Slot) : Slot → PTable → Except Panic (Option Int × PTable) :=
  searchBody (fun q => q.parent = some pExit) (fun g q => { q with parent := g.initproc }) .zombie
    (fun _ s => wakeup1 (.ofProc s.initproc) s) 1

def exitSearchAll (id : ListId) (pExit : Slot) (s : PTable) : Except Panic (Int × PTable) :=
  (forList id (exitBody pExit) s).map (orElse 0)

def exitSearchReady (pExit : Slot) (s : PTable) : Except Panic (Int × PTable) :=
  (forReady (fun i s => forList (.ready i) (exitBody pExit) s) s).map (orElse 0)

/-- The searches of `exit`, each made only when the ones before it found nothing. -/
def exitSearch (proc : Slot) (s : PTable) : Except Panic (Int × PTable) := do
  let (found, s) ← exitSearchAll .embryo proc s
  let (found, s) ← (if found = 0 then exitSearchReady proc s else .ok (found, s))
  let (found, s) ← (if found = 0 then exitSearchAll .sleep proc s else .ok (found, s))
  let (found, s) ← (if found = 0 then exitSearchAll .running proc s else .ok (found, s))
  if found = 0 then exitSearchAll .zombie proc s else .ok (found, s)

def exit (proc : Slot) (s : PTable) : Except Panic PTable :=
  if s.initproc = some proc then .error .initExiting
  else do
    let s ← wakeup1 (.ofProc (s.proc proc).parent) s
    let (_, s) ← exitSearch proc s
    let s ← changeState .running .zombie proc .running .zombie "exit()" s
    sched proc s

/-! ## wait -/

/-- The locals of one search pass of `wait` beside the table; `pid` starts at `-1`. -/
structure WaitSt where
  s : PTable
  pid : BitVec 32
  havekids : Bool

/-- The body of the wait searches: the inner loop walks the zombie list and reaps `p1`
where it meets it. -/
def waitBody (err : String) (pWait p1 : Slot) (w : WaitSt) : Except Panic (Option Unit × WaitSt) :=
  if (w.s.proc p1).parent ≠ some pWait then .ok (none, w)
  else do
    let w := { w with havekids := true }
    let (_, w) ← forEach (β := Unit) .hang (fun w => w.s.next) (fun p2 w =>
      if p1 = p2 then do
        let pid := (w.s.proc p1).pid
        let s ← changeState .zombie .free p1 .zombie .unused err w.s
        let s := s.modify p1 fun q =>
          { q with pid := 0, parent := none, name := [], killed := false }
        .ok (none, { w with s := s, pid := pid })
      else .ok (none, w)) NPROC (w.s.head .zombie) w
    .ok (none, w)

/-- The loop over one list of the wait searches. -/
def waitLoop (err : String) (pWait : Slot) (id : ListId) (w : WaitSt) :
    Except Panic (Option Unit × WaitSt) :=
  forEach .hang (fun w => w.s.next) (waitBody err pWait) NPROC (w.s.head id) w

def waitSearchAll (id : ListId) (pWait : Slot) (w : WaitSt) : Except Panic WaitSt := do
  let (_, w) ← waitLoop "waitSearchAll()" pWait id { w with pid := -1 }
  .ok w

def waitSearchReady (pWait : Slot) (w : WaitSt) : Except Panic WaitSt := do
  let (_, w) ← forReady (fun i w => waitLoop "waitSearchReady()" pWait (.ready i) w)
    { w with pid := -1 }
  .ok w

/-- One search pass of `wait`. -/
def waitPass (proc : Slot) (s : PTable) : Except Panic WaitSt := do
  let w ← waitSearchAll .embryo proc { s := s, pid := -1, havekids := false }
  let w ← (if w.pid = -1 then waitSearchReady proc w else .ok w)
  let w ← (if w.pid = -1 then waitSearchAll .sleep proc w else .ok w)
  let w ← (if w.pid = -1 then waitSearchAll .running proc w else .ok w)
  if w.pid = -1 then waitSearchAll .zombie proc w else .ok w

/-- One turn of the loop of `wait`: the value it returns, or `none` when it sleeps. -/
def wait (proc : Slot) (s : PTable) : Except Panic (Option (BitVec 32) × PTable) := do
  let w ← waitPass proc s
  if w.pid ≠ -1 then .ok (some w.pid, w.s)
  else if w.havekids = false ∨ (w.s.proc proc).killed then .ok (some (-1), w.s)
  else do
    let s ← sleep proc (.proc proc) w.s
    .ok (none, s)

/-! ## setpriority, promoteProcs, scheduler -/

/-- The tail of the sleep and running loops of `setpriority`. -/
def setprioBody (state : ProcState) (pID : BitVec 32) (prio : Nat) (p : Slot) (s : PTable) :
    Except Panic (Option Int × PTable) :=
  if (s.proc p).pid = pID then
    if (s.proc p).priority ≠ prio then do
      assertState p state s
      .ok (some 0, s.modify p fun q => { q with priority := prio, budget := maxBudget })
    else .ok (some 0, s)
  else .ok (none, s)

/-- The body of the ready loop of `setpriority`. -/
def setprioReady (i : Nat) (pID : BitVec 32) (prio : Nat) (p : Slot) (s : PTable) :
    Except Panic (Option Int × PTable) :=
  if (s.proc p).pid = pID then
    if (s.proc p).priority ≠ prio then do
      let (rc, s) ← stateListRemove (.ready i) p s
      if rc = -1 then
        .error (.stateList "Failed to remove process from the proper ready list. setpriority()")
      else
        assertState p .runnable s
        assertPrio p i s
        let s := s.modify p fun q => { q with priority := prio, budget := maxBudget }
        let (rc, s) ← stateListAdd (.ready (s.proc p).priority) p s
        if rc = -1 then
          .error (.stateList "Failed to add process to the proper ready list. setpriority()")
        else .ok (some 0, s)
    else .ok (some 0, s)
  else .ok (none, s)

def setpriority (pID : BitVec 32) (prio : Nat) (s : PTable) : Except Panic (Int × PTable) := do
  let (r, s) ← forReady (fun i s => forList (.ready i) (setprioReady i pID prio) s) s
  match r with
  | some v => .ok (v, s)
  | none =>
    let (r, s) ← forList .sleep (setprioBody .sleeping pID prio) s
    match r with
    | some v => .ok (v, s)
    | none =>
      let (r, s) ← forList .running (setprioBody .running pID prio) s
      .ok (orElse (-1) (r, s))

/-- `for(p = ready[i]; p != 0; p = ready[i])`: move the head of level `i` up until it is empty. -/
def promoteLevel (i : Nat) : Nat → PTable → Except Panic PTable
  | 0, s =>
    match s.head (.ready i) with
    | none => .ok s
    | some _ => .error .hang
  | fuel + 1, s =>
    match s.head (.ready i) with
    | none => .ok s
    | some p => do
      let (rc, s) ← stateListRemove (.ready i) p s
      if rc = -1 then
        .error (.stateList "Failed to remove process from the proper ready list. promoteProcs()")
      else
        assertState p .runnable s
        assertPrio p i s
        let s := s.modify p fun q => { q with priority := q.priority - 1, budget := maxBudget }
        let (rc, s) ← stateListAdd (.ready (i - 1)) p s
        if rc = -1 then
          .error (.stateList "Failed to add process to the proper ready list. promoteProcs()")
        else promoteLevel i fuel s

/-- The body of the sleep and running loops of `promoteProcs`. -/
def promoteBody (state : ProcState) (p : Slot) (s : PTable) :
    Except Panic (Option Unit × PTable) := do
  assertState p state s
  .ok (none, s.modify p fun q =>
    { q with priority := if q.priority > 0 then q.priority - 1 else q.priority,
             budget := maxBudget })

def promoteProcs (s : PTable) : Except Panic PTable := do
  let s ← (List.range' 1 maxPrio).foldlM (fun s i => promoteLevel i NPROC s) s
  let (_, s) ← forList .sleep (promoteBody .sleeping) s
  let (_, s) ← forList .running (promoteBody .running) s
  .ok s

/-- The body of the scheduler's loop over the levels. -/
def dispatch (i : Nat) (s : PTable) : Except Panic (Option Slot × PTable) :=
  match s.head (.ready i) with
  | none => .ok (none, s)
  | some p => do
    let (rc, s) ← stateListRemove (.ready i) p s
    if rc = -1 then
      .error (.stateList "Process failed to be removed from the ready list. scheduler()")
    else
      assertState p .runnable s
      assertPrio p i s
      let s := s.modify p fun q => { q with state := .running }
      let (rc, s) ← stateListAdd .running p s
      if rc = -1 then
        .error (.stateList "Process failed to be added to the proper ready list. scheduler()")
      else .ok (some p, s.modify p fun q => { q with cpuTicksIn := s.ticks })

/-- One pass of the scheduler up to `swtch`: the process it switches to, if any. -/
def scheduler (s : PTable) : Except Panic (Option Slot × PTable) := do
  let s ← (if s.ticks ≥ s.promoteAtTime then do
      let s ← promoteProcs s
      .ok { s with promoteAtTime := s.ticks + ticksToPromote }
    else .ok s)
  forReady dispatch s

end PTable

end Xv6.Procs
