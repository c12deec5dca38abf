import Xv6.Fs.Coherence
import Xv6.Fs.Logged
import Xv6.Log.Cache

/-!
# The transactions of `filewrite`

`begin_op` reserves `MAXOPBLOCKS` blocks of the log for an operation.  `filewrite` writes at most
`maxChunk` bytes in one, a bound that comes from the size of the whole log and not from
`MAXOPBLOCKS`, so a chunk can log more than was reserved.
-/

namespace Xv6.Fs

open Log (MAXOPBLOCKS)

variable {sb : Superblock}

/-- The places of the bytes `[off, off + n)` of inode `i` that hold no block yet. -/
def toAllocate (sb : Superblock) (D : Disk) (i off n : Nat) : Finset Ptr :=
  lacking sb D (places i (visits off n))

/-- The blocks that a write of `n` bytes at `off` logs: those it writes to, the indirect block if
an entry is made, the blocks of the free map with the bits that are set, and the block of the
inode if the file grows. -/
def logBlocks (L : Layout sb) (D : Disk) (i off n : Nat) : Nat :=
  span off n +
  (if ∃ bn ∈ visits off n, NDIRECT ≤ bn ∧ D.addr sb i bn = 0 then 1 else 0) +
  (((D.freeList sb).take (toAllocate sb D i off n).card).toFinset.image L.bblock).card +
  if (D.ino i).size < off + n then 1 else 0

namespace Logged

variable (L : Layout sb) (dev : Devsw) {s : State} {t : ISlot} {off : Nat} {src : List UInt8}

/-- A call that is refused, or goes to a device, logs nothing. -/
theorem writei_none (h : (s.ic t).copy.type = T_DEV ∨ MAXFILE * BSIZE < off + src.length) :
    Run (fun _ => False) (fun _ x => x.2 = ∅) (writei L dev t src off) (s, ∅) := by
  refine run_get (Run.ite (fun _ => ?_) fun hdev => ?_)
  · exact Run.ite (fun _ => Run.pure rfl) fun _ => Run.pure rfl
  · refine Run.ite (fun _ => Run.pure rfl) fun _ => ?_
    exact Run.ite (fun _ => Run.pure rfl) fun hle => absurd (h.resolve_left hdev) hle

/-- A call that writes, panics only for want of free blocks. -/
theorem writei_logged (htx : s.tx = true) (ho : Owned sb (s.over t))
    (hl : (s.over t).Live sb (s.ic t).inum) (hoff : off ≤ (s.ic t).copy.size)
    (hdev : (s.ic t).copy.type ≠ T_DEV) (hmax : off + src.length ≤ MAXFILE * BSIZE) :
    Run (fun _ => ((s.over t).freeList sb).length <
        (toAllocate sb (s.over t) (s.ic t).inum off src.length).card)
      (fun _ x => (toAllocate sb (s.over t) (s.ic t).inum off src.length).card ≤
          ((s.over t).freeList sb).length ∧
        x.2.card = logBlocks L (s.over t) (s.ic t).inum off src.length)
      (writei L dev t src off) (s, ∅) := by
  have hV : ∀ bn ∈ visits off src.length, bn < MAXFILE := fun bn => visits_lt hmax
  have hsize : ((s.over t).ino (s.ic t).inum).size = (s.ic t).copy.size := by
    rw [State.over, Disk.setIno_self]
  refine run_get (Run.ite (fun h => absurd h hdev) fun _ => Run.ite (fun h => ?_) fun _ =>
    Run.ite (fun h => absurd hmax (Nat.not_le.2 h)) fun _ => ?_)
  · dsimp only [MAXFILE, NDIRECT, NINDIRECT, BSIZE] at hmax
    omega
  have hloop := writeLoop_logged L (t := t) rfl htx src.length off src (s.over t) ∅ le_rfl hmax ho hl
  rw [put_over] at hloop
  refine Run.bind (hloop.error_mono fun e he => he.2) ?_
  rintro o _ ⟨D', m, rfl, rfl, htakes⟩
  have hcount : m.length = (toAllocate sb (s.over t) (s.ic t).inum off src.length).card :=
    htakes.count
  have hroom : (toAllocate sb (s.over t) (s.ic t).inum off src.length).card ≤
      ((s.over t).freeList sb).length := by
    rw [htakes.free, List.length_append, ← hcount]
    omega
  have hcard := logs_card L hV htakes
  have htake : ((s.over t).freeList sb).take
      (toAllocate sb (s.over t) (s.ic t).inum off src.length).card = m := by
    rw [← hcount, htakes.free, List.take_left]
  unfold logBlocks
  rw [hsize, htake, ← visits_card, ← hcard, Finset.empty_union]
  refine Run.ite (fun hgrow => ?_) fun hgrow => Run.pure ⟨hroom, ?_⟩
  · refine run_modC _ (run_iupdate L htx (Run.pure ⟨hroom, ?_⟩))
    rw [if_pos hgrow.2]
    refine Finset.card_insert_of_notMem fun hmem => ?_
    have hlow := bmapstart_le L hV htakes hmem
    have hhigh := L.iblock_lt hl.1
    simp only [put_inum] at hlow
    omega
  · have hno : ¬ (s.ic t).copy.size < off + src.length := fun h => hgrow ⟨by omega, h⟩
    rw [if_neg hno]
    rfl

end Logged

/-- A call of `writei` in a transaction, at an offset within the file.  Whatever state the inode
and the disk are in: if it returns it has logged at most `MAXOPBLOCKS` blocks, exactly if the file
is a device, or would become too long, or the disk does not have the free blocks, or the blocks
come to no more than that. -/
theorem writei_within (L : Layout sb) (dev : Devsw) {s : State} {t : ISlot} {off : Nat}
    (src : List UInt8) (htx : s.tx = true) (ho : Owned sb (s.over t))
    (hl : (s.over t).Live sb (s.ic t).inum) (hoff : off ≤ (s.ic t).copy.size) :
    (∀ r s' l, Logged.writei L dev t src off (s, ∅) = .ok (r, s', l) → l.card ≤ MAXOPBLOCKS) ↔
      (s.ic t).copy.type = T_DEV ∨ MAXFILE * BSIZE < off + src.length ∨
      ((s.over t).freeList sb).length <
        (toAllocate sb (s.over t) (s.ic t).inum off src.length).card ∨
      logBlocks L (s.over t) (s.ic t).inum off src.length ≤ MAXOPBLOCKS := by
  by_cases hnone : (s.ic t).copy.type = T_DEV ∨ MAXFILE * BSIZE < off + src.length
  · rw [← or_assoc, iff_true_right (.inl hnone)]
    intro r s' l hr
    have hl : l = ∅ := (Logged.writei_none L dev hnone).of_ok hr
    rw [hl]
    exact Nat.zero_le _
  rw [not_or] at hnone
  have hmax : off + src.length ≤ MAXFILE * BSIZE := Nat.not_lt.1 hnone.2
  have hrun := Logged.writei_logged L dev htx ho hl hoff hnone.1 hmax
  simp only [hnone.1, hnone.2, false_or]
  constructor
  · intro hall
    by_cases hfull : ((s.over t).freeList sb).length <
        (toAllocate sb (s.over t) (s.ic t).inum off src.length).card
    · exact .inl hfull
    right
    cases hr : Logged.writei L dev t src off (s, ∅) with
    | error e => exact absurd (hrun.of_error hr) hfull
    | ok x =>
      rw [← (hrun.of_ok hr).2]
      exact hall _ _ _ hr
  · intro h r s' l hr
    obtain ⟨hroom, hcard⟩ := hrun.of_ok hr
    rw [hcard]
    exact h.resolve_left (Nat.not_lt.2 hroom)

/-- The root image with an empty file. -/
def newFile : Disk := rootImage.setIno 2 (.fresh T_FILE)

/-- A process is about to write to the file. -/
def writing : State :=
  { boot newFile with
    ic := Function.update (boot newFile).ic 1 ⟨2, 1, true, true, .fresh T_FILE⟩
    tx := true }

theorem writing_over : writing.over 1 = newFile := over_eq rfl

theorem writing_owned : Owned mkfsSb (writing.over 1) := by
  rw [writing_over]
  have hfree : ¬ rootImage.Live mkfsSb 2 := fun h => absurd (rootImage_live.1 h) (by decide)
  exact (rootImage_ok.fresh hfree T_FILE).toOwned

theorem writing_live : (writing.over 1).Live mkfsSb (writing.ic 1).inum := by
  rw [writing_over]
  decide

theorem writei_within_block : ∃ r s' l,
    Logged.writei mkfsLayout nullDev 1 [7] 0 (writing, ∅) = .ok (r, s', l) ∧
      l.card ≤ MAXOPBLOCKS := by
  have hblocks : logBlocks mkfsLayout (writing.over 1) (writing.ic 1).inum 0 1 ≤ MAXOPBLOCKS := by
    rw [writing_over]
    decide +kernel
  have hall := (writei_within mkfsLayout nullDev [7] rfl writing_owned writing_live
    (Nat.zero_le _)).2 (.inr (.inr (.inr hblocks)))
  have hok : (Logged.writei mkfsLayout nullDev 1 [7] 0 (writing, ∅)).isOk = true := by
    decide +kernel
  cases hr : Logged.writei mkfsLayout nullDev 1 [7] 0 (writing, ∅) with
  | error e =>
    rw [hr] at hok
    cases hok
  | ok x => exact ⟨_, _, _, rfl, hall _ _ _ hr⟩

/-- The first chunk of a write of 6656 bytes or more to an empty file: 13 data blocks, the
indirect block, the free map and the inode. -/
theorem writei_exceeds : ∃ src : List UInt8, src.length = maxChunk ∧ ∃ r s' l,
    Logged.writei mkfsLayout nullDev 1 src 0 (writing, ∅) = .ok (r, s', l) ∧ l.card = 16 := by
  refine ⟨List.replicate maxChunk 7, List.length_replicate, ?_⟩
  have hlen : (List.replicate maxChunk (7 : UInt8)).length = maxChunk := List.length_replicate
  generalize List.replicate maxChunk (7 : UInt8) = src at hlen
  have hmax : 0 + src.length ≤ MAXFILE * BSIZE := by
    rw [hlen]
    decide
  have hrun := Logged.writei_logged mkfsLayout nullDev rfl writing_owned writing_live
    (Nat.zero_le _) (by decide) hmax
  rw [hlen, writing_over] at hrun
  have hroom : ¬ (newFile.freeList mkfsSb).length <
      (toAllocate mkfsSb newFile (writing.ic 1).inum 0 maxChunk).card := by
    decide +kernel
  have hblocks : logBlocks mkfsLayout newFile (writing.ic 1).inum 0 maxChunk = 16 := by
    decide +kernel
  cases hr : Logged.writei mkfsLayout nullDev 1 src 0 (writing, ∅) with
  | error e => exact absurd (hrun.of_error hr) hroom
  | ok x => exact ⟨_, _, _, rfl, (hrun.of_ok hr).2.trans hblocks⟩

end Xv6.Fs
