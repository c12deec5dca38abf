import Xv6.Fs.Layout
import Xv6.Fs.Ownership

/-!
# The inode cache and the inode blocks

Between calls an entry of the cache that has been read is the inode on the disk.
Without ownership of blocks this fails: when the free map has the boot block free,
`balloc` hands out block 0, which is also "no block", and a later write that does not
grow the file allocates again without `iupdate`.
-/

namespace Xv6.Fs

variable {sb : Superblock} {dev : Devsw} {L : Layout sb} {R : Nat → Bytes} {D : Disk} {s : State}

theorem Ok.fits (h : Ok sb D) {i : Nat} (hi : D.Live sb i) : (D.ino i).Fits := by
  refine ⟨(h.size_le hi).trans_lt (by decide), fun k => ?_⟩
  have hslot : D.slot sb i k = (D.ino i).addrs k := if_pos hi
  have hp : ∃ r, D.ptr sb r = D.slot sb i k := by
    refine Fin.lastCases ⟨.indirect i, rfl⟩ (fun k => ⟨.direct i k, rfl⟩) k
  obtain ⟨r, hr⟩ := hp
  rw [← hslot, ← hr]
  by_cases h0 : D.ptr sb r = 0
  · rw [h0]
    decide
  · exact (h.range r h0).2.trans sb.fits

/-- The areas of `mkfs`. -/
def mkfsLayout : Layout mkfsSb := ⟨32, 58, by decide, by decide⟩

/-- The routine stores what the model says into the block. -/
theorem iupdate_holds (h : L.Holds R s.disk) (t : ISlot) (hi : (s.ic t).inum < sb.ninodes)
    (hf : (s.ic t).copy.Fits) :
    Run (fun _ => True) (fun _ s' => L.Holds (L.iupdate R (s.ic t).inum (s.ic t).copy) s'.disk)
      (iupdate t) s := by
  unfold iupdate
  refine Run.get_bind (Run.modify_bind ?_)
  unfold logWrite
  exact Run.get_bind (Run.ite (fun _ => Run.pure (h.iupdate hi hf)) fun _ => Run.throw trivial)

/-- In every state of every run from a well-formed image, an entry of the cache that is referenced,
valid and not locked is the inode on the disk, as the blocks hold it; and `iupdate` stores the one
inode and leaves the others of the block as they are. -/
theorem cache_coherent (L : Layout sb) (h : (machine sb dev (WellFormed sb)).Reach s) :
    (∀ t, 0 < (s.ic t).ref → (s.ic t).valid = true → (s.ic t).busy = false →
      (s.ic t).copy = s.disk.ino (s.ic t).inum ∧
      ∀ R, L.Holds R s.disk → (s.ic t).copy = L.dinode R (s.ic t).inum) ∧
    ∀ R s₁ t s₂, L.Holds R s₁.disk → (s₁.ic t).inum < sb.ninodes → (s₁.ic t).copy.Fits →
      iupdate t s₁ = .ok ((), s₂) →
      L.Holds (L.iupdate R (s₁.ic t).inum (s₁.ic t).copy) s₂.disk ∧
      ∀ j, j ≠ (s₁.ic t).inum →
        L.dinode (L.iupdate R (s₁.ic t).inum (s₁.ic t).copy) j = L.dinode R j := by
  have hg := (reach_idle h).good
  refine ⟨fun t ht hv _ => ?_, fun R s₁ t s₂ hR hi hf hs => ⟨?_, fun j hj => ?_⟩⟩
  · have hc := (hg.clean t ht hv).1
    exact ⟨hc, fun R hR => by rw [hR.ino _ (hg.range t ht), hc]⟩
  · exact (iupdate_holds hR t hi hf).of_ok hs
  · exact L.dinode_iupdate_of_ne R _ hj

/-- A file that has been created and written to. -/
theorem cache_coherent_written : ∃ s, (machine mkfsSb nullDev (WellFormed mkfsSb)).Reach s ∧
    0 < (s.ic 1).ref ∧ (s.ic 1).inum = 2 ∧ (s.ic 1).copy = s.disk.ino 2 := by
  obtain ⟨s, hs, hp⟩ := exists_reach mkfsSb nullDev
    (l := [(0, .openFile [102] (O_CREATE ||| O_RDWR)), (0, .write 0 [7])])
    (P := fun s => 0 < (s.ic 1).ref ∧ (s.ic 1).valid = true ∧ (s.ic 1).busy = false ∧
      (s.ic 1).inum = 2) rootImage_mkfs.wellFormed (by decide +kernel)
  obtain ⟨h1, h2, h3, h4⟩ := of_decide_eq_true hp
  refine ⟨s, hs, h1, h4, ?_⟩
  rw [← h4]
  exact ((cache_coherent mkfsLayout hs).1 1 h1 h2 h3).1

/-! ## Without ownership -/

/-- The root image with the boot block marked free. -/
def bootFree : Disk := { rootImage with bit := fun b => 0 < b ∧ b < 60 }

/-- The file is written, opened again and written at the same offset: the second write gives it
block 60 in the cache and not on the disk. -/
theorem cache_stale : ∃ s, (machine mkfsSb nullDev (NoHoles mkfsSb)).Reach s ∧
    0 < (s.ic 1).ref ∧ (s.ic 1).valid = true ∧ (s.ic 1).busy = false ∧
    (s.ic 1).copy.addrs 0 = 60 ∧ (s.disk.ino (s.ic 1).inum).addrs 0 = 0 := by
  have hD : NoHoles mkfsSb bootFree := rootImage_ok.nohole
  obtain ⟨s, hs, hp⟩ := exists_reach mkfsSb nullDev
    (l := [(0, .openFile [102] (O_CREATE ||| O_RDWR)), (0, .write 0 [7]),
      (0, .openFile [102] O_RDWR), (0, .write 1 [8])])
    (P := fun s => 0 < (s.ic 1).ref ∧ (s.ic 1).valid = true ∧ (s.ic 1).busy = false ∧
      (s.ic 1).copy.addrs 0 = 60 ∧ (s.disk.ino (s.ic 1).inum).addrs 0 = 0) hD (by decide +kernel)
  exact ⟨s, hs, of_decide_eq_true hp⟩

end Xv6.Fs
