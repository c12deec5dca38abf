import Xv6.Param
import Xv6.Lib.Ring
import Xv6.Lib.System

/-!
# Console input: `consoleintr` and `consoleread` of `console.c`

`input` is a ring of `INPUT_BUF` characters with three 32-bit indices that wrap: `r` where the reader
is, `w` where the committed characters end, `e` where the line that is being edited ends.
`consoleintr` holds `cons.lock` for all characters it gets, `consoleread` holds it except while it
sleeps, so that each of them runs atomically from its call, or from the end of a sleep, to its next
sleep or its return.  The wakeups are not modelled: a sleeping reader can go on at any time, and looks
at the indices again.  What is echoed, and the listings that are printed, are left out.
-/

namespace Xv6.Console

abbrev INPUT_BUF : Nat := 128

/-- `C(x)` -/
def ctrl (x : Char) : UInt8 := UInt8.ofNat (x.toNat - '@'.toNat)

def newline : UInt8 := UInt8.ofNat '\n'.toNat

def carriage : UInt8 := UInt8.ofNat '\r'.toNat

structure Input where
  buf : Fin INPUT_BUF → UInt8
  r : BitVec 32
  w : BitVec 32
  e : BitVec 32

namespace Input

/-- Everything that is pending, committed or not. -/
def ring (i : Input) : Ring UInt8 INPUT_BUF 32 := ⟨i.buf, i.r, i.e⟩

/-- The loop of ^U.  It has at most `e - w` rounds, after which the condition fails. -/
def killLine : Nat → Input → Input
  | 0, i => i
  | n + 1, i =>
    if i.e ≠ i.w ∧ i.buf (Ring.cell (i.e - 1)) ≠ newline then killLine n { i with e := i.e - 1 } else i

/-- `default:` with a character that there is room for. -/
def insert (c : UInt8) (i : Input) : Input :=
  let c := if c = carriage then newline else c
  let i := { i with buf := Function.update i.buf (Ring.cell i.e) c, e := i.e + 1 }
  if c = newline ∨ c = ctrl 'D' ∨ i.e = i.r + BitVec.ofNat 32 INPUT_BUF then { i with w := i.e } else i

end Input

/-- The keys that print a list of processes. -/
def listing (c : UInt8) : Prop :=
  c = ctrl 'P' ∨ c = ctrl 'R' ∨ c = ctrl 'F' ∨ c = ctrl 'S' ∨ c = ctrl 'Z'

instance (c : UInt8) : Decidable (listing c) := inferInstanceAs (Decidable (_ ∨ _))

/-- ^H, or delete -/
def erases (c : UInt8) : Prop := c = ctrl 'H' ∨ c = 0x7f

instance (c : UInt8) : Decidable (erases c) := inferInstanceAs (Decidable (_ ∨ _))

/-- One round of the loop of `consoleintr`. -/
def consoleintrChar (c : UInt8) (i : Input) : Input :=
  if listing c then i
  else if c = ctrl 'U' then i.killLine (i.e - i.w).toNat
  else if erases c then if i.e ≠ i.w then { i with e := i.e - 1 } else i
  else if c ≠ 0 ∧ (i.e - i.r).toNat < INPUT_BUF then i.insert c
  else i

/-- `consoleintr` with what `getc` gives it. -/
def consoleintr (cs : List UInt8) (i : Input) : Input := cs.foldl (fun i c => consoleintrChar c i) i

/-- The end of an atomic stretch of `consoleread`: its return with what it has stored at `dst`, or a
sleep with `n` and what it has stored so far. -/
inductive Outcome
  | ret (v : Nat) (dst : List UInt8)
  | killed
  | sleep (n : Nat) (dst : List UInt8)

/-- The loop of `consoleread`, with `dst` stored and `n` to go. -/
def consoleread (killed : Bool) (target : Nat) : (n : Nat) → (dst : List UInt8) → Input → Outcome × Input
  | 0, dst, i => (.ret target dst, i)
  | n + 1, dst, i =>
    if i.r = i.w then
      if killed then (.killed, i) else (.sleep (n + 1) dst, i)
    else
      let c := i.buf (Ring.cell i.r)
      let i := { i with r := i.r + 1 }
      if c = ctrl 'D' then
        -- saved for the next call, which then returns 0
        (.ret (target - (n + 1)) dst, if n + 1 < target then { i with r := i.r - 1 } else i)
      else if c = newline then (.ret (target - n) (dst ++ [c]), i)
      else consoleread killed target n (dst ++ [c]) i

/-! ## One reader -/

/-- A call that sleeps. -/
structure Call where
  target : Nat
  n : Nat
  dst : List UInt8

structure State where
  input : Input
  call : Option Call
  /-- what the calls have returned and stored, the first one first -/
  out : List (Nat × List UInt8)

inductive Act
  | intr (cs : List UInt8)
  | read (n : Int)
  | resume

namespace State

def start (buf : Fin INPUT_BUF → UInt8) : State where
  input := ⟨buf, 0, 0, 0⟩
  call := none
  out := []

/-- A stretch of `consoleread` by a process that has not been killed. -/
def run (s : State) (c : Call) : State :=
  match consoleread false c.target c.n c.dst s.input with
  | (.ret v dst, i) => { input := i, call := none, out := s.out ++ [(v, dst)] }
  | (.killed, i) => { s with input := i, call := none }
  | (.sleep n dst, i) => { s with input := i, call := some ⟨c.target, n, dst⟩ }

/-- There is one reader: it calls when its last call has returned. -/
def exec (s : State) : Act → Option State
  | .intr cs => some { s with input := consoleintr cs s.input }
  | .read n => if s.call.isNone then some (s.run ⟨n.toNat, n.toNat, []⟩) else none
  | .resume => s.call.map s.run

end State

end Xv6.Console
