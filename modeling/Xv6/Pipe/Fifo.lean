import Xv6.Lib.Ring
import Xv6.Lib.System

/-!
# Pipes: `pipe.c`

A pipe is a ring of `PIPESIZE` bytes with two 32-bit counters that wrap.  `pipewrite` and
`piperead` hold the pipe's lock except while they sleep, so each of them runs atomically from its
call, or from the end of a sleep, to its next sleep or its return.  The wakeups are not modelled:
a sleeping process can go on at any time, and looks at the counters again.

The history of a run is what the writers have stored and what the readers have been handed, in
order; the processes do not look at it.
-/

namespace Xv6.Pipe

open List

abbrev PIPESIZE : Nat := 512

structure Pipe where
  data : Fin PIPESIZE → UInt8
  nread : BitVec 32
  nwrite : BitVec 32
  readopen : Bool
  writeopen : Bool

/-- The pipe that `pipealloc` makes, in a page that holds anything. -/
def pipealloc (data : Fin PIPESIZE → UInt8) : Pipe where
  data := data
  nread := 0
  nwrite := 0
  readopen := true
  writeopen := true

/-- `pipeclose`; nobody is left to look at a pipe whose page it frees. -/
def pipeclose (writable : Bool) (p : Pipe) : Pipe :=
  if writable then { p with writeopen := false } else { p with readopen := false }

/-- The end of an atomic stretch of a call: its return, or a sleep with what is left to do. -/
inductive Outcome (α : Type)
  | ret (v : Int)
  | sleep (rest : α)

/-- `p->data[p->nwrite++ % PIPESIZE] = c` -/
def put (c : UInt8) (p : Pipe) : Pipe :=
  { p with data := Function.update p.data (Ring.cell p.nwrite) c, nwrite := p.nwrite + 1 }

/-- `pipewrite` from the bytes that are still to be stored, with the bytes it stores. -/
def pipewrite (killed : Bool) (n : Int) :
    (addr : List UInt8) → Pipe → Outcome (List UInt8) × List UInt8 × Pipe
  | [], p => (.ret n, [], p)
  | c :: addr, p =>
    if p.nwrite = p.nread + BitVec.ofNat 32 PIPESIZE then
      if p.readopen = false ∨ killed then (.ret (-1), [], p)
      else (.sleep (c :: addr), [], p)
    else
      let (o, l, p) := pipewrite killed n addr (put c p)
      (o, c :: l, p)

/-- The copying loop of `piperead`, with the bytes it hands over. -/
def copy : (n : Nat) → Pipe → List UInt8 × Pipe
  | 0, p => ([], p)
  | n + 1, p =>
    if p.nread = p.nwrite then ([], p)
    else
      let (l, q) := copy n { p with nread := p.nread + 1 }
      (p.data (Ring.cell p.nread) :: l, q)

/-- `piperead`, from its start or from the end of its sleep. -/
def piperead (killed : Bool) (n : Int) (p : Pipe) : Outcome Unit × List UInt8 × Pipe :=
  if p.nread = p.nwrite ∧ p.writeopen then
    if killed then (.ret (-1), [], p) else (.sleep (), [], p)
  else
    let (l, p) := copy n.toNat p
    (.ret l.length, l, p)

/-! ## Any number of processes -/

/-- What a sleeping process goes on with. -/
inductive Call
  | write (n : Int) (rest : List UInt8)
  | read (n : Int)

structure State where
  pipe : Pipe
  call : Nat → Option Call
  stored : List UInt8
  handed : List UInt8

/-- `killed` is what the process finds in `proc->killed`. -/
inductive Act
  | write (p : Nat) (killed : Bool) (n : Int) (addr : List UInt8)
  | read (p : Nat) (killed : Bool) (n : Int)
  | resume (p : Nat) (killed : Bool)
  | close (writable : Bool)

/-- The return value of a stretch that ends its call. -/
def Outcome.val {α : Type} : Outcome α → Option Int
  | .ret v => some v
  | .sleep _ => none

namespace State

def runWrite (s : State) (p : Nat) (killed : Bool) (n : Int) (addr : List UInt8) :
    State × Option Int :=
  let (o, l, pipe) := pipewrite killed n addr s.pipe
  let call := match o with
    | .ret _ => none
    | .sleep rest => some (.write n rest)
  ({ s with pipe := pipe, call := Function.update s.call p call, stored := s.stored ++ l }, o.val)

def runRead (s : State) (p : Nat) (killed : Bool) (n : Int) : State × Option Int :=
  let (o, l, pipe) := piperead killed n s.pipe
  let call := match o with
    | .ret _ => none
    | .sleep _ => some (.read n)
  ({ s with pipe := pipe, call := Function.update s.call p call, handed := s.handed ++ l }, o.val)

/-- The new state, and the value when a call returns. -/
def exec (s : State) : Act → Option (State × Option Int)
  | .write p killed n addr =>
    if (s.call p).isNone ∧ addr.length = n.toNat then some (s.runWrite p killed n addr) else none
  | .read p killed n => if (s.call p).isNone then some (s.runRead p killed n) else none
  | .resume p killed =>
    match s.call p with
    | none => none
    | some (.write n rest) => some (s.runWrite p killed n rest)
    | some (.read n) => some (s.runRead p killed n)
  | .close writable => some ({ s with pipe := pipeclose writable s.pipe }, none)

/-- The count of the `piperead` that runs, if one does. -/
def reading (s : State) : Act → Option Int
  | .read _ _ n => some n
  | .resume p _ =>
    match s.call p with
    | some (.read n) => some n
    | _ => none
  | _ => none

end State

/-- All interleavings; a step is labelled with the value when a call returns. -/
def machine : System State (Act × Option Int) where
  init s := (∃ data, s.pipe = pipealloc data) ∧ (∀ p, s.call p = none) ∧ s.stored = [] ∧
    s.handed = []
  step s a s' := s.exec a.1 = some (s', a.2)

/-! ## The pipe as a ring -/

def ring (p : Pipe) : Ring UInt8 PIPESIZE 32 := ⟨p.data, p.nread, p.nwrite⟩

/-- The bytes `q` wait in the pipe after `n` have been read. -/
abbrev Holds (p : Pipe) (n : Nat) (q : List UInt8) : Prop := (ring p).Holds n q

theorem pipesize_dvd : PIPESIZE ∣ 2 ^ 32 := by decide

theorem pipesize_lt : PIPESIZE < 2 ^ 32 := by decide

variable {p : Pipe} {n : Nat} {q : List UInt8}

theorem pipewrite_holds {killed : Bool} {m : Int} {addr : List UInt8} (h : Holds p n q) :
    Holds (pipewrite killed m addr p).2.2 n (q ++ (pipewrite killed m addr p).2.1) := by
  induction addr generalizing p q with
  | nil => simpa [pipewrite] using h
  | cons c addr ih =>
    rw [pipewrite]
    split
    · split <;> simpa using h
    next hfull =>
      have hlen : q.length < PIPESIZE :=
        lt_of_le_of_ne h.le fun he => hfull ((h.full_iff pipesize_lt).2 he)
      have hput : Holds (put c p) n (q ++ [c]) := h.push pipesize_dvd hlen c
      have := ih hput
      rwa [append_assoc] at this

theorem copy_holds {m : Nat} (h : Holds p n q) :
    ∃ q', q = (copy m p).1 ++ q' ∧ Holds (copy m p).2 (n + (copy m p).1.length) q' ∧
      (copy m p).2.writeopen = p.writeopen ∧ ((copy m p).1 = [] → m = 0 ∨ q = []) := by
  induction m generalizing p n q with
  | zero => exact ⟨q, rfl, h, rfl, fun _ => .inl rfl⟩
  | succ m ih =>
    rw [copy]
    split
    next hempty => exact ⟨q, rfl, h, rfl, fun _ => .inr ((h.empty_iff pipesize_lt).1 hempty)⟩
    next hempty =>
      cases q with
      | nil => exact absurd ((h.empty_iff pipesize_lt).2 rfl) hempty
      | cons x q =>
        obtain ⟨q', hq, hh, hw, -⟩ := ih (p := { p with nread := p.nread + 1 }) h.pop
        have hx : p.data (Ring.cell p.nread) = x := h.front pipesize_dvd
        refine ⟨q', ?_, ?_, hw, nofun⟩
        · show x :: q = p.data (Ring.cell p.nread) :: _ ++ q'
          rw [hx, hq]
          rfl
        · rw [length_cons, ← Nat.add_assoc, Nat.add_right_comm]
          exact hh

/-- What `piperead` hands over comes off the front, and it returns 0 to a caller that wants
bytes only at the end of the stream. -/
theorem piperead_holds (killed : Bool) (m : Int) (h : Holds p n q) :
    ∃ q', q = (piperead killed m p).2.1 ++ q' ∧
      Holds (piperead killed m p).2.2 (n + (piperead killed m p).2.1.length) q' ∧
      (0 < m → (piperead killed m p).1.val = some 0 →
        (piperead killed m p).2.2.writeopen = false ∧ q' = []) := by
  unfold piperead
  split
  · split
    · exact ⟨q, rfl, h, nofun⟩
    · exact ⟨q, rfl, h, nofun⟩
  next hgo =>
    obtain ⟨q', hq, hh, hw, hnil⟩ := copy_holds (m := m.toNat) h
    refine ⟨q', hq, hh, fun hm hv => ?_⟩
    have hl : (copy m.toNat p).1 = [] := by
      rw [← length_eq_zero_iff]
      simpa [Outcome.val] using hv
    have hq0 : q = [] := (hnil hl).resolve_left (by omega)
    have hclosed : p.writeopen = false := by
      have he : p.nread = p.nwrite := (h.empty_iff pipesize_lt).2 hq0
      simpa [he] using hgo
    exact ⟨hw.trans hclosed, by rw [hq0, hl] at hq; exact hq.symm⟩

/-! ## Over runs -/

/-- What has been stored is what has been handed over and what waits. -/
def Inv (s : State) : Prop :=
  ∃ q, s.stored = s.handed ++ q ∧ Holds s.pipe s.handed.length q

variable {s : State}

theorem runWrite_inv (h : Inv s) (p : Nat) (killed : Bool) (m : Int)
    (addr : List UInt8) : Inv (s.runWrite p killed m addr).1 := by
  obtain ⟨q, hq, hh⟩ := h
  refine ⟨q ++ (pipewrite killed m addr s.pipe).2.1, ?_, pipewrite_holds hh⟩
  show s.stored ++ _ = s.handed ++ (q ++ _)
  rw [hq, append_assoc]

theorem runRead_inv (h : Inv s) (p : Nat) (killed : Bool) (m : Int) :
    Inv (s.runRead p killed m).1 ∧ (0 < m → (s.runRead p killed m).2 = some 0 →
      (s.runRead p killed m).1.pipe.writeopen = false ∧
      (s.runRead p killed m).1.handed = (s.runRead p killed m).1.stored) := by
  obtain ⟨q, hq, hh⟩ := h
  obtain ⟨q', hqq, hh', hend⟩ := piperead_holds killed m hh
  have hstored : (s.runRead p killed m).1.stored = (s.runRead p killed m).1.handed ++ q' := by
    show s.stored = s.handed ++ (piperead killed m s.pipe).2.1 ++ q'
    rw [hq, hqq, append_assoc]
  refine ⟨⟨q', hstored, ?_⟩, fun hm hv => ?_⟩
  · show Holds _ (s.handed ++ (piperead killed m s.pipe).2.1).length q'
    rw [length_append]
    exact hh'
  · obtain ⟨hw, hnil⟩ := hend hm hv
    refine ⟨hw, ?_⟩
    rw [hstored, hnil, append_nil]

theorem exec_inv {s' : State} {a : Act} {v : Option Int} (h : Inv s)
    (he : s.exec a = some (s', v)) :
    Inv s' ∧ ∀ m, s.reading a = some m → 0 < m → v = some 0 →
      s'.pipe.writeopen = false ∧ s'.handed = s'.stored := by
  have hwrite : ∀ p killed m addr, some (s.runWrite p killed m addr) = some (s', v) → Inv s' := by
    intro p killed m addr hr
    have := runWrite_inv h p killed m addr
    rwa [Option.some.inj hr] at this
  have hread : ∀ p killed m, some (s.runRead p killed m) = some (s', v) → Inv s' ∧ (0 < m →
      v = some 0 → s'.pipe.writeopen = false ∧ s'.handed = s'.stored) := by
    intro p killed m hr
    have := runRead_inv h p killed m
    rwa [Option.some.inj hr] at this
  cases a with
  | write p killed m addr =>
    rw [State.exec] at he
    split at he
    · exact ⟨hwrite p killed m addr he, nofun⟩
    · cases he
  | read p killed m =>
    rw [State.exec] at he
    split at he
    · obtain ⟨hi, hend⟩ := hread p killed m he
      exact ⟨hi, fun k hk => by cases hk; exact hend⟩
    · cases he
  | resume p killed =>
    rw [State.exec] at he
    rw [State.reading]
    split at he
    · cases he
    next m rest hc =>
      rw [hc]
      exact ⟨hwrite p killed m rest he, nofun⟩
    next m hc =>
      rw [hc]
      obtain ⟨hi, hend⟩ := hread p killed m he
      exact ⟨hi, fun k hk => by cases hk; exact hend⟩
  | close writable =>
    cases he
    refine ⟨?_, nofun⟩
    obtain ⟨q, hq, hh⟩ := h
    refine ⟨q, hq, ?_⟩
    show Holds (pipeclose writable s.pipe) _ q
    unfold pipeclose
    split <;> exact hh

theorem reach_inv (h : machine.Reach s) : Inv s := by
  refine System.Reach.invariant (P := Inv) ?_ (fun s a s' _ hi he => (exec_inv hi he).1) h
  rintro s ⟨⟨data, hp⟩, -, hs, hh⟩
  refine ⟨[], by rw [hs, hh, append_nil], ?_⟩
  rw [hh, hp]
  exact .start rfl rfl

/-- In every interleaving of any number of writers and readers, with any counts and any closing
of the two ends: the readers have been handed a first part of what the writers stored, the
counters differ by at most `PIPESIZE`, and a `piperead` that wants bytes returns 0 only when the
write end is closed and every stored byte has been read. -/
theorem pipe_fifo {s : State} (h : machine.Reach s) :
    s.handed <+: s.stored ∧ (s.pipe.nwrite - s.pipe.nread).toNat ≤ PIPESIZE ∧
    ∀ a s' m, machine.step s (a, some 0) s' → s.reading a = some m → 0 < m →
      s'.pipe.writeopen = false ∧ s'.handed = s'.stored := by
  have hi := reach_inv h
  refine ⟨?_, ?_, fun a s' m hs hm hpos => (exec_inv hi hs).2 m hm hpos rfl⟩
  · obtain ⟨q, hq, -⟩ := hi
    exact ⟨q, hq.symm⟩
  · obtain ⟨q, -, hh⟩ := hi
    exact (hh.count pipesize_lt).trans_le hh.le

/-- A writer stores two bytes and closes its end; a reader is handed one of them. -/
theorem pipe_fifo_pair : ∃ s, machine.Reach s ∧ s.handed = [7] ∧ s.stored = [7, 8] ∧
    s.handed <+: s.stored ∧ (s.pipe.nwrite - s.pipe.nread).toNat ≤ PIPESIZE := by
  let start : State := ⟨pipealloc fun _ => 0, fun _ => none, [], []⟩
  have hrun : (System.follow (fun s a => (s.exec a).map Prod.fst)
      [.read 1 false 1, .write 2 false 2 [7, 8], .close true, .resume 1 false] start).any
      (fun s => decide (s.handed = [7] ∧ s.stored = [7, 8])) = true := by decide +kernel
  obtain ⟨s, hs, hP⟩ := (Option.any_eq_true _ _).1 hrun
  obtain ⟨hh, hst⟩ := of_decide_eq_true hP
  have hr : machine.Reach s := by
    refine .follow (fun t a t' ht => ?_) (.init ⟨⟨_, rfl⟩, fun _ => rfl, rfl, rfl⟩) hs
    obtain ⟨⟨t₁, v⟩, he, rfl⟩ := Option.map_eq_some_iff.1 ht
    exact ⟨(a, v), he⟩
  exact ⟨s, hr, hh, hst, (pipe_fifo hr).1, (pipe_fifo hr).2.1⟩

end Xv6.Pipe
