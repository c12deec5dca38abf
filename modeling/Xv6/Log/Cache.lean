import Xv6.Param

/-!
# The buffer cache (`bio.c`)

`NBUF` buffers on a list with the most recently used first.  A buffer is BUSY
while a process holds it; a DIRTY buffer that nobody holds has changes that the
log has not committed, and is not recycled.  Disk requests (`iderw`) are atomic:
the buffer is BUSY from before the request until after it, so nobody sees it in
between.

There is one disk, so a buffer's key is its block number alone.
-/

namespace Xv6.Log

open Function

abbrev NPROC : Nat := 64
abbrev MAXOPBLOCKS : Nat := 10
abbrev LOGSIZE : Nat := MAXOPBLOCKS * 3
abbrev NBUF : Nat := MAXOPBLOCKS * 3

/-- A process. -/
abbrev Slot := Fin NPROC
/-- A `struct buf *`. -/
abbrev BufId := Fin NBUF
/-- The `BSIZE` bytes of a block as `int`s. -/
abbrev Block := Fin 128 → Nat
abbrev Disk := Nat → Block

/-- `struct buf`.  `blockno` is `none` while `dev` is -1; `busy` is `B_BUSY` with the process
that holds the buffer. -/
structure Buf where
  blockno : Option Nat := none
  busy : Option Slot := none
  valid : Bool := false
  dirty : Bool := false
  data : Block := fun _ => 0

structure Bcache where
  buf : BufId → Buf
  /-- the list from `head.next` on -/
  mru : List BufId

inductive Panic
  /-- `"bget: no buffers"` -/
  | noBuffers
  /-- `"bwrite"` -/
  | bwrite
  /-- `"brelse"` -/
  | brelse
  /-- `"too big a transaction"` -/
  | tooBig
  /-- `"log_write outside of trans"` -/
  | outsideTrans
  /-- `"log.committing"` -/
  | committing
deriving DecidableEq, Repr

/-- Why a process does not take its next step. -/
inductive Stop
  /-- it sleeps, or is not at that point of its program -/
  | waits
  | panics (p : Panic)
deriving DecidableEq, Repr

namespace Bcache

/-- `binit` -/
def init : Bcache where
  buf _ := {}
  mru := (List.finRange NBUF).reverse

def modify (c : Bcache) (i : BufId) (f : Buf → Buf) : Bcache :=
  { c with buf := update c.buf i (f (c.buf i)) }

def lookup (c : Bcache) (b : Nat) : Option BufId := c.mru.find? fun i => (c.buf i).blockno = some b

/-- The least recently used buffer that is neither BUSY nor DIRTY. -/
def victim (c : Bcache) : Option BufId :=
  c.mru.reverse.find? fun i => (c.buf i).busy = none ∧ (c.buf i).dirty = false

/-- A caller that finds the buffer BUSY sleeps and then starts its scan anew. -/
def bget (c : Bcache) (t : Slot) (b : Nat) : Except Stop (BufId × Bcache) :=
  match c.lookup b with
  | some i =>
    if (c.buf i).busy = none then .ok (i, c.modify i fun u => { u with busy := some t })
    else .error .waits
  | none =>
    match c.victim with
    | some i => .ok (i, c.modify i fun u =>
        { u with blockno := some b, busy := some t, valid := false, dirty := false })
    | none => .error (.panics .noBuffers)

def bread (c : Bcache) (d : Disk) (t : Slot) (b : Nat) : Except Stop (BufId × Bcache) := do
  let (i, c) ← c.bget t b
  if (c.buf i).valid then return (i, c)
  return (i, c.modify i fun u => { u with data := d b, valid := true })

/-- The request is over: `B_VALID` is set and `B_DIRTY` cleared. -/
def bwrite (c : Bcache) (d : Disk) (i : BufId) : Except Stop (Disk × Bcache) :=
  match (c.buf i).busy, (c.buf i).blockno with
  | some _, some b => .ok (update d b (c.buf i).data,
      c.modify i fun u => { u with valid := true, dirty := false })
  | _, _ => .error (.panics .bwrite)

def brelse (c : Bcache) (i : BufId) : Except Stop Bcache :=
  if (c.buf i).busy = none then .error (.panics .brelse)
  else .ok { c.modify i fun u => { u with busy := none } with mru := i :: c.mru.erase i }

/-! ## What the operations do -/

variable {c c' : Bcache} {d d' : Disk} {t : Slot} {b : Nat} {i : BufId}

@[simp] theorem modify_buf_self (f : Buf → Buf) : (c.modify i f).buf i = f (c.buf i) :=
  update_self ..

theorem modify_buf_of_ne (f : Buf → Buf) {j : BufId} (h : j ≠ i) :
    (c.modify i f).buf j = c.buf j :=
  update_of_ne h ..

/-- No two buffers cache one block, and those that cache one are valid. -/
structure WF (c : Bcache) : Prop where
  uniq : ∀ i j b, (c.buf i).blockno = some b → (c.buf j).blockno = some b → i = j
  valid : ∀ i b, (c.buf i).blockno = some b → (c.buf i).valid = true
  mem : ∀ i, i ∈ c.mru

/-- A buffer changed in its flags and data only. -/
theorem WF.modify (h : c.WF) {f : Buf → Buf} (hb : (f (c.buf i)).blockno = (c.buf i).blockno)
    (hv : (f (c.buf i)).valid = (c.buf i).valid ∨ (f (c.buf i)).valid = true) :
    (c.modify i f).WF := by
  have hbn : ∀ j, ((c.modify i f).buf j).blockno = (c.buf j).blockno := by
    intro j
    by_cases hj : j = i
    · subst hj
      rw [modify_buf_self, hb]
    · rw [modify_buf_of_ne f hj]
  refine ⟨fun j k b hj hk => h.uniq j k b ((hbn j) ▸ hj) ((hbn k) ▸ hk), fun j b hj => ?_, h.mem⟩
  have hjv := h.valid j b ((hbn j) ▸ hj)
  by_cases he : j = i
  · subst he
    rw [modify_buf_self]
    rcases hv with hv | hv
    · rw [hv, hjv]
    · exact hv
  · rw [modify_buf_of_ne f he]
    exact hjv

/-- What `bread` returns: the cached buffer, now held; or a recycled one, read from the disk. -/
theorem bread_cases (hw : c.WF) (h : c.bread d t b = .ok (i, c')) :
    ((c.buf i).blockno = some b ∧ (c.buf i).busy = none ∧
      c' = c.modify i fun u => { u with busy := some t }) ∨
    ((∀ j, (c.buf j).blockno ≠ some b) ∧ (c.buf i).busy = none ∧ (c.buf i).dirty = false ∧
      c' = c.modify i fun u =>
        { u with blockno := some b, busy := some t, valid := true, dirty := false, data := d b }) := by
  unfold bread bget at h
  cases hl : c.lookup b with
  | some k =>
    have hk : (c.buf k).blockno = some b := by simpa using List.find?_some hl
    rw [hl] at h
    dsimp only at h
    split at h
    · next hbusy =>
      left
      have hv := hw.valid k b hk
      simp only [bind, Except.bind, modify_buf_self, hv, if_true, pure, Except.pure,
        Except.ok.injEq, Prod.mk.injEq] at h
      obtain ⟨rfl, rfl⟩ := h
      exact ⟨hk, hbusy, rfl⟩
    · cases h
  | none =>
    rw [hl] at h
    dsimp only at h
    cases hv : c.victim with
    | none =>
      rw [hv] at h
      cases h
    | some k =>
      right
      rw [hv] at h
      have hk := List.find?_some hv
      simp only [decide_eq_true_eq] at hk
      simp only [bind, Except.bind, modify_buf_self, Bool.false_eq_true, if_false, pure,
        Except.pure, Except.ok.injEq, Prod.mk.injEq] at h
      obtain ⟨rfl, rfl⟩ := h
      refine ⟨fun j hj => ?_, hk.1, hk.2, ?_⟩
      · have := List.find?_eq_none.1 hl j (hw.mem j)
        simp [hj] at this
      · simp [Bcache.modify]

theorem bwrite_cases (h : c.bwrite d i = .ok (d', c')) :
    ∃ b, (c.buf i).blockno = some b ∧ d' = update d b (c.buf i).data ∧
      c' = c.modify i fun u => { u with valid := true, dirty := false } := by
  unfold bwrite at h
  split at h
  · next b hb _ =>
    simp only [Except.ok.injEq, Prod.mk.injEq] at h
    exact ⟨_, by assumption, h.1.symm, h.2.symm⟩
  · cases h

end Bcache

end Xv6.Log
