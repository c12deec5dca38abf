import Xv6.Fs.Model
import Xv6.Vm.Model

/-!
# exec (`exec.c`, `loaduvm` of `vm.c`)

`exec` works on the file system, on the memory and on the calling process.  It runs alone here, as the
calls of the file system do.  `loaduvm` stores through the kernel's mapping of all physical memory into
whatever page the entry names, whether it is present or not; `wild` records that such a store has hit
the kernel's own memory, where the process table, the inode cache and the log lie, or no memory at all.

Of the trap frame there are the two fields that `exec` sets.
-/

namespace Xv6.Exec

open Fs (ISlot Pid)
open Vm (VM Mem Layout PGSIZE)

abbrev MAXARG : Nat := 32
abbrev ELF_MAGIC : Nat := 0x464C457F
abbrev ELF_PROG_LOAD : Nat := 1

/-! ## State -/

structure Trapframe where
  eip : Nat
  esp : Nat

structure Proc where
  pgdir : Nat
  sz : Nat
  name : List UInt8
  tf : Trapframe
  uid : Nat
  gid : Nat

structure State where
  fs : Fs.State
  /-- `log.outstanding` -/
  outstanding : Nat
  mem : Mem
  /-- the calling process -/
  proc : Proc
  wild : Bool

inductive Fault
  | fs (e : Fs.Panic)
  | vm (e : Vm.Panic)

abbrev X := StateT State (Except Fault)

def onFs {α : Type} (m : Fs.M α) : X α := fun k =>
  match m k.fs with
  | .ok (a, s) => .ok (a, { k with fs := s })
  | .error e => .error (.fs e)

def onMem {α : Type} (m : VM α) : X α := fun k =>
  match m k.mem with
  | .ok (a, s) => .ok (a, { k with mem := s })
  | .error e => .error (.vm e)

def beginOp : X Unit := do
  onFs Fs.beginOp
  modify fun k => { k with outstanding := k.outstanding + 1 }

def endOp : X Unit := do
  modify fun k => { k with outstanding := k.outstanding - 1 }
  onFs Fs.endOp

/-! ## The executable -/

/-- `((uint*)bs)[o / 4]` -/
def word (bs : List UInt8) (o : Nat) : Nat :=
  (bs.getD o 0).toNat + 2 ^ 8 * (bs.getD (o + 1) 0).toNat + 2 ^ 16 * (bs.getD (o + 2) 0).toNat +
    2 ^ 24 * (bs.getD (o + 3) 0).toNat

/-- The bytes of a word, the lowest first. -/
def bytes (w : Nat) : List UInt8 :=
  [UInt8.ofNat w, UInt8.ofNat (w / 2 ^ 8), UInt8.ofNat (w / 2 ^ 16), UInt8.ofNat (w / 2 ^ 24)]

abbrev ELFSIZE : Nat := 52
abbrev PHSIZE : Nat := 32

/-- The fields of `struct elfhdr` that are used. -/
structure Elfhdr where
  magic : Nat
  entry : Nat
  phoff : Nat
  phnum : Nat

def Elfhdr.decode (bs : List UInt8) : Elfhdr where
  magic := word bs 0
  entry := word bs 24
  phoff := word bs 28
  phnum := word bs 44 % 2 ^ 16

/-- The fields of `struct proghdr` that are used. -/
structure Proghdr where
  type : Nat
  off : Nat
  vaddr : Nat
  filesz : Nat
  memsz : Nat

def Proghdr.decode (bs : List UInt8) : Proghdr where
  type := word bs 0
  off := word bs 4
  vaddr := word bs 8
  filesz := word bs 16
  memsz := word bs 20

/-! ## Loading -/

section
variable [Layout] (sb : Fs.Superblock) (dev : Fs.Devsw)

/-- The kernel's image, or what is not memory. -/
def kernelPage (f : Nat) : Prop :=
  Vm.EXTMEM ≤ PGSIZE * f ∧ PGSIZE * f < Layout.kernEnd ∨ Vm.PHYSTOP ≤ PGSIZE * f

instance (f : Nat) : Decidable (kernelPage f) := inferInstanceAs (Decidable (_ ∨ _))

/-- The bytes that `readi` copies to `p2v(pa)`. -/
def store (f : Nat) (bs : List UInt8) : X Unit :=
  modify fun k => { k with
    mem := k.mem.setPage f ((k.mem.page f).memmove 0 bs)
    wild := k.wild || decide (kernelPage f ∧ bs ≠ []) }

/-- The loop of `loaduvm`; false is -1. -/
def loaduvmLoop (pgdir addr : Nat) (ip : ISlot) (offset sz : Nat) : Nat → Nat → X Bool
  | 0, _ => throw (.vm .hang)
  | fuel + 1, i => do
    if i < sz then
      match ← onMem (Vm.walkpgdir pgdir ((addr + i) % 2 ^ 32) false) with
      | none => throw (.vm .loaduvmExist)
      | some (pgtab, j) =>
        let pa := Vm.pteAddr ((← get).mem.entry pgtab j)
        let n := if sz - i < PGSIZE then sz - i else PGSIZE
        match ← onFs (Fs.readi sb dev ip ((offset + i) % 2 ^ 32) n) with
        | none => return false
        | some bs =>
          store pa bs
          if bs.length ≠ n then
            return false
          else
            loaduvmLoop pgdir addr ip offset sz fuel ((i + PGSIZE) % 2 ^ 32)
    else
      return true

def loaduvm (pgdir addr : Nat) (ip : ISlot) (offset sz : Nat) : X Bool := do
  if addr % PGSIZE ≠ 0 then
    throw (.vm .loaduvmAlign)
  else
    loaduvmLoop sb dev pgdir addr ip offset sz (2 ^ 20 + 1) 0

/-- The loop over the program headers with `n` of them left; the size, or none for `goto bad`. -/
def loadLoop (pgdir : Nat) (ip : ISlot) : (n off sz : Nat) → X (Option Nat)
  | 0, _, sz => return some sz
  | n + 1, off, sz => do
    match ← onFs (Fs.readi sb dev ip off PHSIZE) with
    | none => return none
    | some bs =>
      if bs.length ≠ PHSIZE then
        return none
      else
        let ph := Proghdr.decode bs
        if ph.type ≠ ELF_PROG_LOAD then
          loadLoop pgdir ip n ((off + PHSIZE) % 2 ^ 32) sz
        else if ph.memsz < ph.filesz then
          return none
        else
          let sz ← onMem (Vm.allocuvm pgdir sz ((ph.vaddr + ph.memsz) % 2 ^ 32))
          if sz = 0 then
            return none
          else if ← loaduvm sb dev pgdir ph.vaddr ip ph.off ph.filesz then
            loadLoop pgdir ip n ((off + PHSIZE) % 2 ^ 32) sz
          else
            return none

/-! ## The stack -/

/-- `(sp - n) & ~3` -/
def pushDown (sp n : Nat) : Nat := (sp + (2 ^ 32 - n % 2 ^ 32)) % 2 ^ 32 / 4 * 4

/-- The loop over the arguments: the stack pointer and the pointers to the strings. -/
def pushArgs (pgdir : Nat) : List (List UInt8) → (sp : Nat) → (ustack : List Nat) →
    VM (Option (Nat × List Nat))
  | [], sp, ustack => return some (sp, ustack)
  | arg :: argv, sp, ustack => do
    if ustack.length ≥ MAXARG then
      return none
    else
      let sp := pushDown sp (arg.length + 1)
      if ← Vm.copyout pgdir sp (arg ++ [0]) then
        pushArgs pgdir argv sp (ustack ++ [sp])
      else
        return none

/-- Two pages at the next page boundary, the first one a guard, and the arguments: the size and the
stack pointer, or none for `goto bad`. -/
@[irreducible]
def setupStack (pgdir sz : Nat) (argv : List (List UInt8)) : VM (Option (Nat × Nat)) := do
  let sz := Vm.pgroundup sz
  let sz ← Vm.allocuvm pgdir sz ((sz + 2 * PGSIZE) % 2 ^ 32)
  if sz = 0 then
    return none
  else
    Vm.clearpteu pgdir ((sz + (2 ^ 32 - 2 * PGSIZE)) % 2 ^ 32)
    match ← pushArgs pgdir argv sz [] with
    | none => return none
    | some (sp, ustack) =>
      let argc := ustack.length
      let frame := 0xffffffff :: argc :: (sp + (2 ^ 32 - (argc + 1) * 4)) % 2 ^ 32 :: ustack ++ [0]
      let sp := (sp + (2 ^ 32 - (3 + argc + 1) * 4)) % 2 ^ 32
      if ← Vm.copyout pgdir sp (frame.flatMap bytes) then
        return some (sz, sp)
      else
        return none

/-! ## exec -/

/-- The check of the execute bits. -/
def mayExec (proc : Proc) (st : Fs.Dinode) : Bool :=
  if proc.uid = st.uid.toNat then st.mode.getLsbD 6
  else if proc.gid = st.gid.toNat then st.mode.getLsbD 3
  else st.mode.getLsbD 0

/-- `bad:` -/
def bad (pgdir : Option Nat) (ip : Option ISlot) : X Bool := do
  match pgdir with
  | none => pure ()
  | some d => onMem (Vm.freevm d)
  match ip with
  | none => pure ()
  | some ip =>
    onFs (Fs.iunlockput ip)
    endOp
  return false

/-- What follows the last slash. -/
def lastElem (path : List UInt8) : List UInt8 :=
  ((path.takeWhile (· ≠ 0)).reverse.takeWhile (· ≠ Fs.slash)).reverse

/-- `proc->name` has 16 bytes. -/
abbrev NAMESIZE : Nat := 16

/-- "Commit to the user image." -/
def commit (path : List UInt8) (st : Fs.Dinode) (pgdir sz entry sp : Nat) : X Unit := do
  let oldpgdir := (← get).proc.pgdir
  modify fun k => { k with proc := { k.proc with
    name := (lastElem path).take (NAMESIZE - 1)
    pgdir := pgdir
    sz := sz
    tf := { eip := entry, esp := sp }
    uid := if st.mode.getLsbD 9 then st.uid.toNat else k.proc.uid } }
  onMem (Vm.freevm oldpgdir)

/-- `exec` by the process `p`; false is -1.  `readi(..) < sizeof(elf)` compares as unsigned, so -1
passes and `elf` is what was on the stack, `junk`. -/
def exec (p : Pid) (junk path : List UInt8) (argv : List (List UInt8)) : X Bool := do
  beginOp
  match ← onFs (Fs.namei sb dev p path) with
  | none =>
    endOp
    return false
  | some ip =>
    onFs (Fs.ilock ip)
    let k ← get
    let st := (k.fs.ic ip).copy
    if mayExec k.proc st = false then
      bad none (some ip)
    else
      let r ← onFs (Fs.readi sb dev ip 0 ELFSIZE)
      let buf := r.getD junk
      let elf := Elfhdr.decode buf
      if r.isSome ∧ buf.length < ELFSIZE then
        bad none (some ip)
      else if elf.magic ≠ ELF_MAGIC then
        bad none (some ip)
      else
        match ← onMem Vm.setupkvm with
        | none => bad none (some ip)
        | some pgdir =>
          match ← loadLoop sb dev pgdir ip elf.phnum elf.phoff 0 with
          | none => bad (some pgdir) (some ip)
          | some sz =>
            onFs (Fs.iunlockput ip)
            endOp
            match ← onMem (setupStack pgdir sz argv) with
            | none => bad (some pgdir) none
            | some (sz, sp) =>
              commit path st pgdir sz elf.entry sp
              return true

end

end Xv6.Exec
