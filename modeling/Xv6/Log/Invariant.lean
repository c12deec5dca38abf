import Xv6.Log.CacheInv

/-!
# The invariant of the log

`dur` is what the disk has to be recovered to and `mem` what the operations have
logged so far.  At every point the disk is `Recoverable`: the home blocks are those
of `dur`, except for blocks named in the header, whose contents are in the log.
The only step that changes `dur` is the write of a header that names blocks, and then
`dur` becomes `mem`.

Because `log_write` makes its tests before it takes the lock, operations can log one
block more than the tests let through one by one, and the log has no room for the
last.  Then every buffer is DIRTY, and the first `bread` of `write_log` finds none to
recycle: `write_log` copies no block unless it has room for all of them.
-/

namespace Xv6.Log

open Function

def Pc.inOp : Pc → Bool
  | .op | .stored _ | .checked _ => true
  | .user | .commit _ => false

namespace State

/-- Some process has changed the data of buffer `i` and not yet logged it. -/
def Mod (s : State) (i : BufId) : Prop := ∃ t, s.pc t = .stored i ∨ s.pc t = .checked i

def Held (s : State) (t : Slot) (i : BufId) (b : Nat) : Prop :=
  (s.cache.buf i).blockno = some b ∧ (s.cache.buf i).busy = some t

/-- How many processes are in an operation. -/
def ops (s : State) : Nat := (Finset.univ.filter fun t => (s.pc t).inOp = true).card

end State

/-- `d` recovers to `dur`. -/
structure Recoverable (A : Area) (d dur : Disk) : Prop where
  short : (d A.start).header.length < NBUF
  nodup : (d A.start).header.Nodup
  home : ∀ b ∈ (d A.start).header, A.Home b
  copies : ∀ k b, (d A.start).header[k]? = some b → d (A.start + k + 1) = dur b
  rest : ∀ b, A.Home b → b ∉ (d A.start).header → d b = dur b

/-- `write_log` has copied `k` blocks. -/
structure Logging (A : Area) (s : State) (mem : Disk) (k : Nat) : Prop where
  up : s.up = true
  header : (s.disk A.start).header = []
  rest : ∀ b, A.Home b → b ∉ s.lh → s.disk b = mem b
  le : k ≤ s.lh.length
  copied : ∀ m b, m < k → s.lh[m]? = some b → s.disk (A.start + m + 1) = mem b

/-- `install_trans` has copied `k` blocks. -/
structure Installing (A : Area) (s : State) (dur mem : Disk) (k : Nat) : Prop where
  header : (s.disk A.start).header = s.lh
  view : dur = mem
  le : k ≤ s.lh.length
  copied : ∀ m b, m < k → s.lh[m]? = some b → s.disk b = dur b

/-- The home blocks are as they should be, and nothing is logged. -/
structure Installed (A : Area) (s : State) (dur mem : Disk) : Prop where
  lh : s.lh = []
  durable : ∀ b, A.Home b → s.disk b = dur b
  view : ∀ b, A.Home b → s.disk b = mem b

def Loop (A : Area) (s : State) (dur mem : Disk) : Dir → Nat → Prop
  | .toLog, k => Logging A s mem k
  | .toHome, k => Installing A s dur mem k

/-- The blocks that a copying loop, `k` blocks on, leaves to install.  Recovery finds an empty
cache. -/
def loopPend (up : Bool) (lh : List Nat) : Dir → Nat → List Nat
  | .toLog, _ => lh
  | .toHome, k => if up then lh.drop k else []

def Pt.pend (up : Bool) (lh : List Nat) : Pt → List Nat
  | .readHead | .readHeadGot _ | .finish => []
  | .top dir k | .gotLog dir k _ | .gotBoth dir k _ _ => loopPend up lh dir k
  | .copied dir k _ _ => loopPend up lh dir (k + 1)
  | .head erase | .headGot erase _ | .headDone erase _ => if erase then [] else lh

/-- What holds while process `t` stands at a point of `commit` or `recover_from_log`. -/
def PtOk (A : Area) (s : State) (dur mem : Disk) (t : Slot) : Pt → Prop
  | .readHead => s.up = false ∧ dur = mem
  | .readHeadGot i => s.up = false ∧ dur = mem ∧ s.Held t i A.start
  | .top dir k => Loop A s dur mem dir k ∧ (0 < k → s.lh.length < NBUF)
  | .gotLog dir k i => Loop A s dur mem dir k ∧ s.lh.length < NBUF ∧ k < s.lh.length ∧
      s.Held t i (A.start + k + 1)
  | .gotBoth dir k i j => Loop A s dur mem dir k ∧ s.lh.length < NBUF ∧
      s.Held t i (A.start + k + 1) ∧ ∃ b, s.lh[k]? = some b ∧ s.Held t j b
  | .copied dir k i j => Loop A s dur mem dir (k + 1) ∧ s.lh.length < NBUF ∧
      s.Held t i (A.start + k + 1) ∧ ∃ b, s.lh[k]? = some b ∧ s.Held t j b
  | .head false => Logging A s mem s.lh.length ∧ s.lh.length < NBUF
  | .headGot false i => Logging A s mem s.lh.length ∧ s.lh.length < NBUF ∧ s.Held t i A.start
  | .headDone false i => s.up = true ∧ Installing A s dur mem 0 ∧ s.Held t i A.start
  | .head true => Installed A s dur mem
  | .headGot true i => Installed A s dur mem ∧ s.Held t i A.start
  | .headDone true i => Installed A s dur mem ∧ (s.disk A.start).header = [] ∧ s.Held t i A.start
  | .finish => Installed A s dur mem ∧ (s.disk A.start).header = []

/-- Who commits or recovers, and where it stands; `none` while operations may run. -/
abbrev Phase := Option (Slot × Pt)

def State.pend (s : State) : Phase → List Nat
  | none => s.lh
  | some (_, p) => p.pend s.up s.lh

def PhaseOk (A : Area) (s : State) (dur mem : Disk) : Phase → Prop
  | none => Logging A s mem 0 ∧ s.committing = false ∧ ∀ t p, s.pc t ≠ .commit p
  | some (t, p) => PtOk A s dur mem t p ∧ s.committing = s.up ∧ s.outstanding = 0 ∧
      s.pc t = .commit p ∧ ∀ u q, s.pc u = .commit q → u = t

structure Inv (A : Area) (s : State) (ph : Phase) (dur mem : Disk) : Prop where
  phase : PhaseOk A s dur mem ph
  count : s.outstanding = s.ops
  mods : ∀ t i, s.pc t = .stored i ∨ s.pc t = .checked i → ∃ b, A.Home b ∧ s.Held t i b
  cache : CacheInv s.cache s.disk mem (s.pend ph) s.Mod
  nodup : s.lh.Nodup
  home : ∀ b ∈ s.lh, A.Home b
  disk : Recoverable A s.disk dur

/-! ## The header and the log area -/

section
variable {A : Area} {s s' : State} {dur mem : Disk} {t : Slot} {b : Nat}

theorem Area.not_home_start (A : Area) : ¬ A.Home A.start := by
  have : 30 ≤ A.size := A.room
  unfold Area.Home
  omega

theorem Area.not_home_copy (A : Area) {k : Nat} (h : k + 1 < NBUF) : ¬ A.Home (A.start + k + 1) := by
  have : 30 ≤ A.size := A.room
  have : k + 1 < 30 := h
  unfold Area.Home
  omega

theorem Area.Home.ne_start (h : A.Home b) : b ≠ A.start := by
  rintro rfl
  exact A.not_home_start h

theorem Area.Home.ne_copy (h : A.Home b) {k : Nat} (hk : k + 1 < NBUF) : b ≠ A.start + k + 1 := by
  rintro rfl
  exact A.not_home_copy hk h

theorem Recoverable.write_home {d : Disk} (h : Recoverable A d dur) (hb : b ∈ (d A.start).header)
    (v : Block) : Recoverable A (update d b v) dur := by
  have hs : update d b v A.start = d A.start :=
    update_of_ne (h.home b hb).ne_start.symm ..
  refine ⟨hs ▸ h.short, hs ▸ h.nodup, hs ▸ h.home, fun k x hk => ?_, fun x hx hn => ?_⟩
  · rw [hs] at hk
    have hlt := (List.getElem?_eq_some_iff.1 hk).1
    have := h.short
    rw [update_of_ne ((h.home b hb).ne_copy (by omega)).symm]
    exact h.copies k x hk
  · rw [hs] at hn
    rw [update_of_ne (ne_of_mem_of_not_mem hb hn).symm]
    exact h.rest x hx hn

/-- While the header names nothing the log's other blocks are free. -/
theorem Recoverable.write_copy {d : Disk} (h : Recoverable A d dur) (he : (d A.start).header = [])
    (hb : ¬ A.Home b) (hs : b ≠ A.start) (v : Block) : Recoverable A (update d b v) dur := by
  have hs' : update d b v A.start = d A.start := update_of_ne hs.symm ..
  refine ⟨hs' ▸ h.short, hs' ▸ h.nodup, hs' ▸ h.home, fun k x hk => ?_, fun x hx hn => ?_⟩
  · rw [hs', he] at hk
    cases hk
  · have hne : x ≠ b := by
      rintro rfl
      exact hb hx
    rw [update_of_ne hne]
    exact h.rest x hx (hs' ▸ hn)

theorem Recoverable.write_head {d : Disk} {lh : List Nat} {v : Block} (hl : lh.length < NBUF)
    (hn : lh.Nodup) (hh : ∀ b ∈ lh, A.Home b) (hv : v.header = lh)
    (hc : ∀ k b, lh[k]? = some b → d (A.start + k + 1) = mem b)
    (hr : ∀ b, A.Home b → b ∉ lh → d b = mem b) :
    Recoverable A (update d A.start v) mem := by
  have hs : (update d A.start v A.start).header = lh := by rw [update_self, hv]
  refine ⟨hs ▸ hl, hs ▸ hn, hs ▸ hh, fun k x hk => ?_, fun x hx hxn => ?_⟩
  · rw [hs] at hk
    rw [update_of_ne (by omega)]
    exact hc k x hk
  · rw [hs] at hxn
    rw [update_of_ne hx.ne_start]
    exact hr x hx hxn

/-! ## Counting operations -/

theorem ops_congr (h : ∀ u, (s'.pc u).inOp = (s.pc u).inOp) : s'.ops = s.ops := by
  unfold State.ops
  simp only [h]

theorem ops_setPc {p : Pc} (h : p.inOp = (s.pc t).inOp) : (s.setPc t p).ops = s.ops := by
  refine ops_congr fun u => ?_
  by_cases hu : u = t
  · subst hu
    simp [State.setPc, h]
  · simp [State.setPc, hu]

theorem ops_enter {p : Pc} (h : (s.pc t).inOp = false) (hp : p.inOp = true) :
    (s.setPc t p).ops = s.ops + 1 := by
  unfold State.ops
  rw [← Finset.card_insert_of_notMem (a := t) (by simp [h])]
  congr 1
  ext u
  rw [Finset.mem_insert, Finset.mem_filter, Finset.mem_filter]
  by_cases hu : u = t
  · subst hu
    simp [State.setPc, hp]
  · simp [State.setPc, hu]

theorem ops_leave {p : Pc} (h : (s.pc t).inOp = true) (hp : p.inOp = false) :
    (s.setPc t p).ops + 1 = s.ops := by
  unfold State.ops
  rw [← Finset.card_erase_add_one (s := Finset.univ.filter fun u => (s.pc u).inOp = true) (a := t)
    (by simp [h])]
  congr 2
  ext u
  rw [Finset.mem_erase, Finset.mem_filter, Finset.mem_filter]
  by_cases hu : u = t
  · subst hu
    simp [State.setPc, hp]
  · simp [State.setPc, hu]

theorem inOp_of_ops (h : s.ops = 0) (u : Slot) : (s.pc u).inOp = false := by
  have := Finset.card_eq_zero.1 h
  have hu := Finset.filter_eq_empty_iff.1 this (Finset.mem_univ u)
  simpa using hu

end

namespace Inv

variable {A : Area} {s s' : State} {ph : Phase} {dur mem : Disk} {t : Slot} {p : Pt}

theorem noOps (h : Inv A s (some (t, p)) dur mem) (u : Slot) : (s.pc u).inOp = false :=
  inOp_of_ops (h.count ▸ h.phase.2.2.1) u

theorem noMod (h : Inv A s (some (t, p)) dur mem) (i : BufId) : ¬ s.Mod i := by
  rintro ⟨u, hu | hu⟩ <;> have := h.noOps u <;> rw [hu] at this <;> cases this

/-- Nobody commits while an operation runs. -/
theorem phase_none (h : Inv A s ph dur mem) (ht : (s.pc t).inOp = true) : ph = none := by
  cases ph with
  | none => rfl
  | some tp =>
    have := h.noOps t
    rw [ht] at this
    cases this

end Inv

end Xv6.Log
