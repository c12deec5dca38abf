import Mathlib

/-!
# The user heap (`umalloc.c`)

Memory is bytes.  A `Header` is two words, a pointer and a size in headers; pointers wrap at
`2 ^ 32`.  The loops of `free` and `malloc` follow a circular list and are given fuel; `none` is
a loop that has not ended yet.

`sbrk` is what the program is run with: each call of `malloc` comes with an `Sbrk`, which says
what the kernel answers to a request.  An answer is a region above all earlier ones, of which
`top` is the end.
-/

namespace Xv6.Malloc

/-! ## Headers in memory -/

abbrev Mem := Nat → UInt8

def word (m : Mem) (a : Nat) : Nat :=
  (m a).toNat + 256 * (m (a + 1)).toNat + 65536 * (m (a + 2)).toNat
    + 16777216 * (m (a + 3)).toNat

def putWord (m : Mem) (a w : Nat) : Mem := fun k =>
  if a ≤ k ∧ k < a + 4 then UInt8.ofNat (w / 256 ^ (k - a)) else m k

/-- `sizeof(Header)` -/
abbrev HSIZE : Nat := 8

namespace Mem

/-- `p->s.ptr` and `p->s.size` -/
def ptr (m : Mem) (p : Nat) : Nat := word m p

def size (m : Mem) (p : Nat) : Nat := word m (p + 4)

def setPtr (m : Mem) (p v : Nat) : Mem := putWord m p v

def setSize (m : Mem) (p v : Nat) : Mem := putWord m (p + 4) v

end Mem

/-- `p + n` of a `Header*` -/
def advance (p n : Nat) : Nat := (p + HSIZE * n) % 2 ^ 32

/-! ## State -/

structure Heap where
  mem : Mem
  /-- zero before the first `malloc` -/
  freep : Nat
  /-- end of what `sbrk` has returned, and of the static data before that -/
  top : Nat

/-- How `sbrk` answers a request for `n` bytes; `none` is `-1`. -/
structure Sbrk where
  call : (top n : Nat) → Option Nat
  fresh : ∀ top n a, call top n = some a → top ≤ a ∧ a + n < 2 ^ 32

/-! ## `free` -/

/-- `for(p = freep; !(bp > p && bp < p->s.ptr); p = p->s.ptr)` -/
def freeLoop (m : Mem) (bp : Nat) : (fuel p : Nat) → Option Nat
  | 0, _ => none
  | fuel + 1, p =>
    if p < bp ∧ bp < m.ptr p then some p
    else if m.ptr p ≤ p ∧ (p < bp ∨ bp < m.ptr p) then some p
    else freeLoop m bp fuel (m.ptr p)

/-- `bp` is joined to the block behind it, or linked to it. -/
def joinUpper (m : Mem) (bp p : Nat) : Mem :=
  if advance bp (m.size bp) = m.ptr p then
    let m := m.setSize bp (m.size bp + m.size (m.ptr p))
    m.setPtr bp (m.ptr (m.ptr p))
  else m.setPtr bp (m.ptr p)

/-- `bp` is joined to the block before it, or linked to it. -/
def joinLower (m : Mem) (bp p : Nat) : Mem :=
  if advance p (m.size p) = bp then
    let m := m.setSize p (m.size p + m.size bp)
    m.setPtr p (m.ptr bp)
  else m.setPtr p bp

def free (fuel : Nat) (h : Heap) (ap : Nat) : Option Heap := do
  let bp := ap - HSIZE
  let p ← freeLoop h.mem bp fuel h.freep
  some { h with mem := joinLower (joinUpper h.mem bp p) bp p, freep := p }

/-! ## `malloc` -/

/-- The new `freep`, or zero. -/
def morecore (k : Sbrk) (fuel : Nat) (h : Heap) (nu : Nat) : Option (Heap × Nat) :=
  let nu := if nu < 4096 then 4096 else nu
  let n := nu * HSIZE % 2 ^ 32
  match k.call h.top n with
  | none => some (h, 0)
  | some hp => do
    let h ← free fuel { h with mem := h.mem.setSize hp nu, top := hp + n } (hp + HSIZE)
    some (h, h.freep)

/-- The block `p`, or the tail of it, is taken; `prevp` is the block before it. -/
def take (h : Heap) (nunits prevp p : Nat) : Heap × Nat :=
  if h.mem.size p = nunits then
    ({ h with mem := h.mem.setPtr prevp (h.mem.ptr p), freep := prevp }, p + HSIZE)
  else
    let m := h.mem.setSize p (h.mem.size p - nunits)
    let p := advance p (m.size p)
    ({ h with mem := m.setSize p nunits, freep := prevp }, p + HSIZE)

def mallocLoop (k : Sbrk) (nunits : Nat) : (fuel : Nat) → Heap → (prevp p : Nat) →
    Option (Heap × Nat)
  | 0, _, _, _ => none
  | fuel + 1, h, prevp, p =>
    if nunits ≤ h.mem.size p then some (take h nunits prevp p)
    else if p = h.freep then do
      let (h, p) ← morecore k fuel h nunits
      if p = 0 then some (h, 0) else mallocLoop k nunits fuel h p (h.mem.ptr p)
    else mallocLoop k nunits fuel h p (h.mem.ptr p)

/-- `(nbytes + sizeof(Header) - 1)/sizeof(Header) + 1` -/
def units (nbytes : Nat) : Nat := (nbytes + HSIZE - 1) % 2 ^ 32 / HSIZE + 1

/-- The first call makes `base` the one block of the list. -/
def start (base : Nat) (h : Heap) : Heap :=
  if h.freep = 0 then { h with mem := (h.mem.setPtr base base).setSize base 0, freep := base }
  else h

/-- The heap and the pointer that is returned, zero if there is no memory. -/
def malloc (base : Nat) (k : Sbrk) (fuel : Nat) (h : Heap) (nbytes : Nat) : Option (Heap × Nat) :=
  let h := start base h
  mallocLoop k (units nbytes) fuel h h.freep (h.mem.ptr h.freep)

/-- With enough fuel the call returns `r`. -/
def Returns {α : Type} (f : Nat → Option α) (r : α) : Prop :=
  ∃ n, ∀ fuel, n ≤ fuel → f fuel = some r

end Xv6.Malloc
