import Xv6.Fs.Disk
import Xv6.Lib.Run

/-!
# Physical pages and page tables (`kalloc.c`, `vm.c`)

Physical memory is its pages, by page number; every store of the two files stays inside one page.
A kernel pointer to a page is the page's number: `p2v` and `v2p` are the shift by `KERNBASE`, and a
page number has no offset, so the alignment test of `kfree` is left out.  A pointer to a page table
entry is the page of the table and the index of the entry.

`kmem.freelist` is threaded through the first words of the free pages.  `deny` says which of the
next calls of `kalloc` fail although a page is left.

User addresses are 32 bits wide and wrap.
-/

namespace Xv6.Vm

open Fs (Bytes)

abbrev PGSIZE : Nat := 4096
abbrev NPDENTRIES : Nat := 1024
abbrev NPTENTRIES : Nat := 1024
abbrev EXTMEM : Nat := 0x100000
abbrev PHYSTOP : Nat := 0xE000000
abbrev DEVSPACE : Nat := 0xFE000000
abbrev KERNBASE : Nat := 0x80000000
abbrev PTE_P : Nat := 1
abbrev PTE_W : Nat := 2
abbrev PTE_U : Nat := 4

/-- Where the linker puts the kernel's `data` and `end`, as physical addresses: `kernel.ld` aligns
`data`, and `main` gives the pages from `end` to 4 MB to `kinit1`. -/
class Layout where
  data : Nat
  kernEnd : Nat
  data_aligned : data % PGSIZE = 0
  text_pos : EXTMEM < data
  data_le : data ≤ kernEnd
  end_le : kernEnd ≤ 0x400000

inductive Panic
  /-- "kfree" -/
  | kfree
  /-- "remap" -/
  | remap
  /-- "PHYSTOP too high" -/
  | physTop
  /-- "inituvm: more than a page" -/
  | inituvm
  /-- "loaduvm: addr must be page aligned" -/
  | loaduvmAlign
  /-- "loaduvm: address should exist" -/
  | loaduvmExist
  /-- "clearpteu" -/
  | clearpteu
  /-- "copyuvm: pte should exist" -/
  | copyuvmPte
  /-- "copyuvm: page not present" -/
  | copyuvmPage
  /-- a null pointer is dereferenced -/
  | fault
  /-- the fuel of a loop has run out -/
  | hang
deriving DecidableEq, Repr

structure Mem where
  page : Nat → Bytes
  freelist : Option Nat
  deny : Nat → Bool

abbrev VM := StateT Mem (Except Panic)

/-! ## Addresses and entries -/

def pdx (va : Nat) : Nat := va / 2 ^ 22 % 1024

def ptx (va : Nat) : Nat := va / 2 ^ 12 % 1024

def pgroundup (sz : Nat) : Nat := (sz + PGSIZE - 1) % 2 ^ 32 / PGSIZE * PGSIZE

def pgrounddown (a : Nat) : Nat := a / PGSIZE * PGSIZE

/-- The page that `PTE_ADDR` gives the address of. -/
def pteAddr (pte : Nat) : Nat := pte / PGSIZE

def pteFlags (pte : Nat) : Nat := pte &&& 0xFFF

namespace Mem

def setPage (s : Mem) (f : Nat) (p : Bytes) : Mem := { s with page := Function.update s.page f p }

/-- `memset(page, c, PGSIZE)` -/
def memset (s : Mem) (f : Nat) (c : UInt8) : Mem := s.setPage f fun _ => c

/-- `((uint*)page)[i]` -/
def entry (s : Mem) (f i : Nat) : Nat := (s.page f).word i

/-- `((uint*)page)[i] = w` -/
def setEntry (s : Mem) (f i w : Nat) : Mem := s.setPage f ((s.page f).putWord i w)

/-- `r->next`, a kernel address or null. -/
def next (s : Mem) (r : Nat) : Option Nat :=
  if s.entry r 0 = 0 then none else some ((s.entry r 0 - KERNBASE) / PGSIZE)

def ptr : Option Nat → Nat
  | none => 0
  | some r => PGSIZE * r + KERNBASE

end Mem

/-! ## kalloc.c -/

/-- Physical address outside of `end .. PHYSTOP`. -/
def kfreeBad [Layout] (v : Nat) : Prop := PGSIZE * v < Layout.kernEnd ∨ PHYSTOP ≤ PGSIZE * v

instance [Layout] (v : Nat) : Decidable (kfreeBad v) := inferInstanceAs (Decidable (_ ∨ _))

def kfree [Layout] (v : Nat) : VM Unit := do
  if kfreeBad v then
    throw .kfree
  modify fun s => s.memset v 1
  modify fun s => { s.setEntry v 0 (Mem.ptr s.freelist) with freelist := some v }

def kalloc : VM (Option Nat) := fun s =>
  let s' := { s with deny := fun n => s.deny (n + 1) }
  match s.freelist with
  | some r => if s.deny 0 then .ok (none, s') else .ok (some r, { s' with freelist := s.next r })
  | none => .ok (none, s')

/-- `for(; p + PGSIZE <= vend; p += PGSIZE)`, over the physical addresses. -/
def freerangeLoop [Layout] (vend : Nat) : Nat → Nat → VM Unit
  | 0, _ => throw .hang
  | n + 1, p => do
    if p + PGSIZE ≤ vend then
      kfree (p / PGSIZE)
      freerangeLoop vend n (p + PGSIZE)

def freerange [Layout] (vstart vend : Nat) : VM Unit := freerangeLoop vend (2 ^ 20) (pgroundup vstart)

/-! ## vm.c -/

def walkpgdir (pgdir va : Nat) (alloc : Bool) : VM (Option (Nat × Nat)) := do
  let pde := (← get).entry pgdir (pdx va)
  if pde &&& PTE_P ≠ 0 then
    return some (pteAddr pde, ptx va)
  else if !alloc then
    return none
  else
    match ← kalloc with
    | none => return none
    | some pgtab =>
      modify fun s => s.memset pgtab 0
      modify fun s => s.setEntry pgdir (pdx va) (PGSIZE * pgtab ||| PTE_P ||| PTE_W ||| PTE_U)
      return some (pgtab, ptx va)

/-- `for(;;)` of `mappages`; false is its -1. -/
def mappagesLoop (pgdir last perm : Nat) : Nat → Nat → Nat → VM Bool
  | 0, _, _ => throw .hang
  | n + 1, a, pa => do
    match ← walkpgdir pgdir a true with
    | none => return false
    | some (pgtab, i) =>
      if (← get).entry pgtab i &&& PTE_P ≠ 0 then
        throw .remap
      modify fun s => s.setEntry pgtab i (pa ||| perm ||| PTE_P)
      if a = last then
        return true
      else
        mappagesLoop pgdir last perm n ((a + PGSIZE) % 2 ^ 32) ((pa + PGSIZE) % 2 ^ 32)

def mappages (pgdir va size pa perm : Nat) : VM Bool :=
  mappagesLoop pgdir (pgrounddown ((va + size + (2 ^ 32 - 1)) % 2 ^ 32)) perm (2 ^ 20)
    (pgrounddown va) pa

structure Kmap where
  virt : Nat
  physStart : Nat
  physEnd : Nat
  perm : Nat

def kmap [Layout] : List Kmap :=
  [⟨KERNBASE, 0, EXTMEM, PTE_W⟩,
    ⟨KERNBASE + EXTMEM, EXTMEM, Layout.data, 0⟩,
    ⟨KERNBASE + Layout.data, Layout.data, PHYSTOP, PTE_W⟩,
    ⟨DEVSPACE, DEVSPACE, 0, PTE_W⟩]

def setupkvmLoop (pgdir : Nat) : List Kmap → VM (Option Nat)
  | [] => return some pgdir
  | k :: ks => do
    if ← mappages pgdir k.virt ((k.physEnd + 2 ^ 32 - k.physStart) % 2 ^ 32) k.physStart k.perm then
      setupkvmLoop pgdir ks
    else
      return none

def setupkvm [Layout] : VM (Option Nat) := do
  match ← kalloc with
  | none => return none
  | some pgdir =>
    modify fun s => s.memset pgdir 0
    if PHYSTOP + KERNBASE > DEVSPACE then
      throw .physTop
    setupkvmLoop pgdir kmap

/-- `init` is less than a page long. -/
def inituvm (pgdir : Nat) (init : List UInt8) : VM Unit := do
  if init.length ≥ PGSIZE then
    throw .inituvm
  match ← kalloc with
  | none => throw .fault
  | some mem =>
    modify fun s => s.memset mem 0
    discard (mappages pgdir 0 PGSIZE (PGSIZE * mem) (PTE_W ||| PTE_U))
    modify fun s => s.setPage mem ((s.page mem).memmove 0 init)

def deallocuvmLoop [Layout] (pgdir oldsz : Nat) : Nat → Nat → VM Unit
  | 0, _ => throw .hang
  | n + 1, a => do
    if a < oldsz then
      match ← walkpgdir pgdir a false with
      | none => deallocuvmLoop pgdir oldsz n ((a + (NPTENTRIES - 1) * PGSIZE + PGSIZE) % 2 ^ 32)
      | some (pgtab, i) =>
        let pte := (← get).entry pgtab i
        if pte &&& PTE_P ≠ 0 then
          if pteAddr pte = 0 then
            throw .kfree
          kfree (pteAddr pte)
          modify fun s => s.setEntry pgtab i 0
        deallocuvmLoop pgdir oldsz n ((a + PGSIZE) % 2 ^ 32)

def deallocuvm [Layout] (pgdir oldsz newsz : Nat) : VM Nat := do
  if newsz ≥ oldsz then
    return oldsz
  else
    deallocuvmLoop pgdir oldsz (2 ^ 20) (pgroundup newsz)
    return newsz

/-- The result of `mappages` is not looked at. -/
def allocuvmLoop [Layout] (pgdir oldsz newsz : Nat) : Nat → Nat → VM Nat
  | 0, _ => throw .hang
  | n + 1, a => do
    if a < newsz then
      match ← kalloc with
      | none =>
        discard (deallocuvm pgdir newsz oldsz)
        return 0
      | some mem =>
        modify fun s => s.memset mem 0
        discard (mappages pgdir a PGSIZE (PGSIZE * mem) (PTE_W ||| PTE_U))
        allocuvmLoop pgdir oldsz newsz n ((a + PGSIZE) % 2 ^ 32)
    else
      return newsz

def allocuvm [Layout] (pgdir oldsz newsz : Nat) : VM Nat := do
  if newsz ≥ KERNBASE then
    return 0
  else if newsz < oldsz then
    return oldsz
  else
    allocuvmLoop pgdir oldsz newsz (2 ^ 20) (pgroundup oldsz)

/-- The page tables, by their index. -/
def freevmLoop [Layout] (pgdir : Nat) : List Nat → VM Unit
  | [] => return ()
  | i :: is => do
    let pde := (← get).entry pgdir i
    if pde &&& PTE_P ≠ 0 then
      kfree (pteAddr pde)
    freevmLoop pgdir is

def freevm [Layout] (pgdir : Nat) : VM Unit := do
  discard (deallocuvm pgdir KERNBASE 0)
  freevmLoop pgdir (List.range NPDENTRIES)
  kfree pgdir

def clearpteu (pgdir uva : Nat) : VM Unit := do
  match ← walkpgdir pgdir uva false with
  | none => throw .clearpteu
  | some (pgtab, i) =>
    modify fun s => s.setEntry pgtab i (s.entry pgtab i &&& (0xFFFFFFFF - PTE_U))

/-- The loop of `copyuvm`; false is `goto bad`. -/
def copyuvmLoop (pgdir sz d : Nat) : Nat → Nat → VM Bool
  | 0, _ => throw .hang
  | n + 1, i => do
    if i < sz then
      match ← walkpgdir pgdir i false with
      | none => throw .copyuvmPte
      | some (pgtab, j) =>
        let pte := (← get).entry pgtab j
        if pte &&& PTE_P = 0 then
          throw .copyuvmPage
        match ← kalloc with
        | none => return false
        | some mem =>
          modify fun s => s.setPage mem (s.page (pteAddr pte))
          if ← mappages d i PGSIZE (PGSIZE * mem) (pteFlags pte) then
            copyuvmLoop pgdir sz d n ((i + PGSIZE) % 2 ^ 32)
          else
            return false
    else
      return true

def copyuvm [Layout] (pgdir sz : Nat) : VM (Option Nat) := do
  match ← setupkvm with
  | none => return none
  | some d =>
    if ← copyuvmLoop pgdir sz d (2 ^ 20) 0 then
      return some d
    else
      freevm d
      return none

/-- The page of `uva`, if the user may use it; a missing page table is not looked for. -/
def uva2ka (pgdir uva : Nat) : VM (Option Nat) := do
  match ← walkpgdir pgdir uva false with
  | none => throw .fault
  | some (pgtab, i) =>
    let pte := (← get).entry pgtab i
    if pte &&& PTE_P = 0 then
      return none
    else if pte &&& PTE_U = 0 then
      return none
    else
      return some (pteAddr pte)

/-- `while(len > 0)`, with the bytes still to copy; false is -1. -/
def copyoutLoop (pgdir : Nat) : Nat → Nat → List UInt8 → VM Bool
  | _, _, [] => return true
  | 0, _, _ => throw .hang
  | n + 1, va, buf => do
    match ← uva2ka pgdir (pgrounddown va) with
    | none => return false
    | some pa0 =>
      let k := PGSIZE - (va - pgrounddown va)
      modify fun s => s.setPage pa0 ((s.page pa0).memmove (va - pgrounddown va) (buf.take k))
      copyoutLoop pgdir n ((pgrounddown va + PGSIZE) % 2 ^ 32) (buf.drop k)

def copyout (pgdir va : Nat) (p : List UInt8) : VM Bool := copyoutLoop pgdir p.length va p

end Xv6.Vm
