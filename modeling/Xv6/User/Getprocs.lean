import Xv6.Proc.Table
import Xv6.User.Args

/-!
# `getprocs`: `sys_getprocs` of `sysproc.c` and `getprocs` of `proc.c`

The call copies one `struct uproc` for each active slot of the process table into an array of
the user.  `sys_getprocs` checks `sizeof(&table) * max` bytes, four for each entry, and
`getprocs` stores entries of `UPROC` bytes.
-/

namespace Xv6.User

open List
open Procs (PTable ProcState Slot NPROC)

abbrev STRMAX : Nat := 32

/-- `struct uproc` of the `CS333_P3P4` build. -/
structure Uproc where
  pid : Word
  uid : Word
  gid : Word
  ppid : Word
  elapsedTicks : Word
  cpuTotalTicks : Word
  state : List UInt8
  size : Word
  name : List UInt8
  priority : Nat
deriving DecidableEq

/-- `sizeof(struct uproc)`: eight words and two strings. -/
abbrev UPROC : Nat := 8 * 4 + 2 * STRMAX

/-- `sizeof(&table)`, the size of a pointer. -/
abbrev POINTER : Word := 4

/-- `safestrcpy`, without the terminator that it always stores. -/
def safestrcpy (t : List UInt8) (n : Nat) : List UInt8 :=
  (t.takeWhile (· ≠ 0)).take (n - 1)

def stateText : ProcState → String
  | .unused => "unused"
  | .embryo => "embryo"
  | .sleeping => "sleep"
  | .runnable => "runble"
  | .running => "run"
  | .zombie => "zombie"

section
variable (s : PTable) (sz : Slot → Word)

/-- The slots that are shown. -/
def active (p : Slot) : Bool :=
  (s.proc p).state ≠ .unused ∧ (s.proc p).state ≠ .embryo

/-- The entry of a slot; `sz p` is `p->sz`. -/
def uproc (p : Slot) : Uproc where
  pid := (s.proc p).pid
  uid := (s.proc p).uid
  gid := (s.proc p).gid
  ppid := match (s.proc p).parent with
    | some q => (s.proc q).pid
    | none => (s.proc p).pid
  elapsedTicks := s.ticks - (s.proc p).startTicks
  cpuTotalTicks := (s.proc p).cpuTicksTotal
  state := safestrcpy (stateText (s.proc p).state).toUTF8.toList STRMAX
  size := sz p
  name := safestrcpy (s.proc p).name STRMAX
  priority := (s.proc p).priority

/-- The loop over the table, with each entry at the address it is stored to. -/
def getprocsLoop (max utable : Word) : (table : List Slot) → (i : Word) → List (Word × Uproc)
  | [], _ => []
  | p :: table, i =>
    if i < max then
      if active s p then
        (utable + BitVec.ofNat 32 UPROC * i, uproc s sz p) ::
          getprocsLoop max utable table (i + 1)
      else getprocsLoop max utable table i
    else []

/-- `getprocs`, with its return value. -/
def getprocs (max utable : Word) : Int × List (Word × Uproc) :=
  let l := getprocsLoop s sz max utable (List.finRange NPROC) 0
  (if l.length < 1 then -1 else l.length, l)

/-- `sys_getprocs`; `none` is the `-1` of the argument checks. -/
def sysGetprocs (u : User) : Option (Int × List (Word × Uproc)) := do
  let max ← argint u 0
  let table ← argptr u 1 (POINTER * max)
  some (getprocs s sz max table)

/-- Consecutive entries, as many as there are active slots and `max`, read as unsigned, allows. -/
theorem getprocsLoop_addr (max utable : Word) (table : List Slot) (i : Word)
    (hi : i.toNat + table.length < 2 ^ 32) :
    (getprocsLoop s sz max utable table i).map Prod.fst =
      (List.range (min (max.toNat - i.toNat) (table.countP (active s)))).map
        fun k => utable + BitVec.ofNat 32 (UPROC * (i.toNat + k)) := by
  induction table generalizing i with
  | nil => simp [getprocsLoop]
  | cons p table ih =>
    rw [length_cons] at hi
    rw [getprocsLoop]
    split
    next hlt =>
      have hlt : i.toNat < max.toNat := hlt
      split
      next ha =>
        have hnext : (i + 1).toNat = i.toNat + 1 := by bv_omega
        have hmin : min (max.toNat - i.toNat) (table.countP (active s) + 1) =
            min (max.toNat - (i.toNat + 1)) (table.countP (active s)) + 1 := by omega
        rw [map_cons, ih _ (by omega), countP_cons_of_pos ha, hmin,
          range_succ_eq_map, map_cons, map_map, hnext]
        have hentry : BitVec.ofNat 32 UPROC * i = BitVec.ofNat 32 (UPROC * (i.toNat + 0)) := by
          rw [Nat.add_zero, BitVec.ofNat_mul, BitVec.ofNat_toNat, BitVec.setWidth_eq]
        rw [hentry]
        congr 1
        apply map_congr_left
        intro k _
        rw [Function.comp_apply, Nat.succ_eq_add_one, Nat.add_right_comm, Nat.add_assoc]
      next ha => rw [ih _ (by omega), countP_cons_of_neg ha]
    next hge =>
      have h0 : max.toNat - i.toNat = 0 := by bv_omega
      rw [h0, Nat.zero_min]
      rfl

/-- The number of active slots. -/
def actives : Nat := (List.finRange NPROC).countP (active s)

theorem actives_le : actives s ≤ NPROC := by
  simpa [actives] using countP_le_length (p := active s) (l := List.finRange NPROC)

theorem getprocs_addr (max utable : Word) :
    (getprocs s sz max utable).2.map Prod.fst =
      (List.range (min max.toNat (actives s))).map
        fun k => utable + BitVec.ofNat 32 (UPROC * k) := by
  have h := getprocsLoop_addr s sz max utable (List.finRange NPROC) 0 (by decide)
  simpa [actives, getprocs] using h

theorem getprocs_length (max utable : Word) :
    (getprocs s sz max utable).2.length = min max.toNat (actives s) := by
  simpa using congrArg List.length (getprocs_addr s sz max utable)

/-- The entries lie below `sz` when the end of the last one does, and only then. -/
theorem entries_below {max utable top : Word} (hlt : utable < top) (htop : top < KERNBASE) :
    (∀ e ∈ (getprocs s sz max utable).2, ∀ a ∈ bytes e.1 UPROC, a < top) ↔
      utable.toNat + UPROC * min max.toNat (actives s) ≤ top.toNat := by
  have hle := actives_le s
  generalize hc : min max.toNat (actives s) = c
  have hmem : ∀ x, x ∈ (getprocs s sz max utable).2.map Prod.fst ↔
      ∃ k < c, utable + BitVec.ofNat 32 (UPROC * k) = x := by
    intro x
    rw [getprocs_addr, hc]
    simp
  have hall : (∀ e ∈ (getprocs s sz max utable).2, ∀ a ∈ bytes e.1 UPROC, a < top) ↔
      ∀ k < c, ∀ a ∈ bytes (utable + BitVec.ofNat 32 (UPROC * k)) UPROC, a < top := by
    constructor
    · intro h k hk
      obtain ⟨e, he, hek⟩ := mem_map.1 ((hmem _).2 ⟨k, hk, rfl⟩)
      rw [← hek]
      exact h e he
    · intro h e he
      obtain ⟨k, hk, hek⟩ := (hmem _).1 (mem_map_of_mem he)
      rw [← hek]
      exact h k hk
  have haddr : ∀ k ≤ c,
      (utable + BitVec.ofNat 32 (UPROC * k)).toNat = utable.toNat + UPROC * k := by
    intro k hk
    dsimp only [UPROC, STRMAX, NPROC] at *
    bv_omega
  rw [hall]
  constructor
  · intro h
    cases c with
    | zero => exact (BitVec.lt_def.1 hlt).le
    | succ c =>
      have hlast := h c (Nat.lt_succ_self c)
      have hfirst := hlast _ (mem_bytes.2 ⟨0, by decide, rfl⟩)
      have := (bytes_below (by simpa using hfirst)).1 hlast
      rw [haddr c (Nat.le_succ c)] at this
      omega
  · intro h k hk
    have hk' : UPROC * k + UPROC ≤ UPROC * c := Nat.mul_le_mul_left UPROC hk
    have hend : (utable + BitVec.ofNat 32 (UPROC * k)).toNat + UPROC ≤ top.toNat := by
      rw [haddr k hk.le]
      omega
    refine (bytes_below (BitVec.lt_def.2 ?_)).2 hend
    exact (Nat.lt_add_of_pos_right (by decide)).trans_le hend

end

/-- The `getprocs` system call, for every size of the address space, every process table and
every argument words.  A call that passes the checks fills entries below `sz`, and at most `max`
of them, exactly when `max` is not negative and the entries happen to fit: four bytes are checked
for each entry of 96, and a negative `max` is a huge one for `getprocs`. -/
theorem getprocs_below_sz {u : User} (s : PTable) (sz : Slot → Word) {max table : Word}
    (hsz : u.sz < KERNBASE) (hmax : argint u 0 = some max) (htable : argint u 1 = some table) :
    (∀ r l, sysGetprocs s sz u = some (r, l) →
      (∀ e ∈ l, ∀ a ∈ bytes e.1 UPROC, a < u.sz) ∧ (l.length : Int) ≤ max.toInt) ↔
      u.sz ≤ table ∨ u.sz < table + POINTER * max ∨
        0 ≤ max.toInt ∧ table.toNat + UPROC * min max.toNat (actives s) ≤ u.sz.toNat := by
  have heq : sysGetprocs s sz u =
      if u.sz ≤ table ∨ u.sz < table + POINTER * max then none
      else some (getprocs s sz max table) := by
    simp only [sysGetprocs, argptr, hmax, htable, Option.bind_eq_bind, Option.bind_some]
    split <;> rfl
  rw [heq, ← or_assoc]
  by_cases harg : u.sz ≤ table ∨ u.sz < table + POINTER * max
  · simp only [harg, if_true, true_or, iff_true]
    intro r l h
    cases h
  simp only [harg, if_false, false_or, Option.some.injEq]
  have hlt : table < u.sz := by bv_omega
  have hcount : ((getprocs s sz max table).2.length : Int) ≤ max.toInt ↔ 0 ≤ max.toInt := by
    rw [getprocs_length, BitVec.toInt_eq_toNat_cond]
    have := actives_le s
    omega
  rw [← hcount, ← entries_below s sz hlt hsz, and_comm]
  exact ⟨fun h => h _ _ rfl, fun h r l hl => by rwa [hl] at h⟩

/-- A table whose only process is the first one of the boot. -/
def oneProc : PTable where
  promoteAtTime := 0
  initproc := none
  nextpid := 2
  ticks := 0
  proc p := if p = 0 then { state := .running, pid := 1 } else {}
  next _ := none
  head _ := none
  tail _ := none

theorem getprocs_below_sz_one :
    ∃ r l, sysGetprocs oneProc (fun _ => 4096) (onePage 2 4000 0) = some (r, l) ∧
      (∀ e ∈ l, ∀ a ∈ bytes e.1 UPROC, a < 4096) ∧ (l.length : Int) ≤ 2 := by
  have hbelow := (getprocs_below_sz oneProc (fun _ => 4096) (u := onePage 2 4000 0) (by decide)
    rfl rfl).2 (by decide +kernel)
  have hrun : sysGetprocs oneProc (fun _ => 4096) (onePage 2 4000 0) =
      some (1, [(4000, uproc oneProc (fun _ => 4096) 0)]) := by
    decide +kernel
  exact ⟨_, _, hrun, hbelow _ _ hrun⟩

/-- Four bytes before the end of the page pass the check for one entry, which reaches over it. -/
theorem getprocs_above_sz :
    ∃ r l, sysGetprocs oneProc (fun _ => 4096) (onePage 1 4092 0) = some (r, l) ∧
      ∃ e ∈ l, (onePage 1 4092 0).sz ∈ bytes e.1 UPROC :=
  ⟨1, [(4092, uproc oneProc (fun _ => 4096) 0)], by decide +kernel, _, mem_singleton.2 rfl,
    by decide +kernel⟩

end Xv6.User
