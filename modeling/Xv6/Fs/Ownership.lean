import Xv6.Fs.Image

/-!
# Block ownership

Between calls the invariant of `Files` holds with nothing in flight.  A call keeps
it (`exec_spec`), so it holds in every state of every run, and with it the
ownership of blocks.
-/

namespace Xv6.Fs

variable {sb : Superblock} {dev : Devsw} {m : Mode} {D : Disk} {s s' : State}

/-! ## Between calls -/

theorem boot_holders (D : Disk) (t : ISlot) : (boot D).holders t = if t = 0 then 1 else 0 := by
  have hp : (boot D).proc =
      Function.update (fun _ => ⟨none, fun _ => none⟩) initproc ⟨some 0, fun _ => none⟩ := by
    funext p
    by_cases h : p = initproc
    · rw [h, Function.update_self]
      rfl
    · rw [Function.update_of_ne h]
      change Proc.mk (if p = initproc then some 0 else none) _ = _
      rw [if_neg h]
  have hf : tally (fun x : File => x.type = .inode ∧ x.ip = t) (boot D).ft = 0 :=
    tally_eq_zero fun f h => nomatch h.1
  have h0 : tally (fun x : Proc => x.cwd = some t)
      (fun _ : Pid => ⟨none, fun _ => none⟩) = 0 := tally_eq_zero fun p h => nomatch h
  have hu := tally_update (p := fun x : Proc => x.cwd = some t)
    (fun _ : Pid => ⟨none, fun _ => none⟩) initproc ⟨some 0, fun _ => none⟩
  unfold State.holders
  rw [hf, hp]
  simp only [reduceCtorEq, if_false, Option.some.injEq, eq_comm (a := (0 : ISlot))] at hu
  omega

theorem boot_ref_pos {t : ISlot} (h : 0 < ((boot D).ic t).ref) :
    t = 0 ∧ ((boot D).ic t).inum = ROOTINO := by
  by_cases ht : t = 0
  · exact ⟨ht, if_pos ht⟩
  · change 0 < if t = 0 then 1 else 0 at h
    rw [if_neg ht] at h
    cases h

theorem boot_good (h : WellFormed sb D) : Good sb .any (boot D).holders [] (boot D) where
  disk := h.ok
  ref t := by
    rw [boot_holders]
    rfl
  uniq t u ht hu _ := (boot_ref_pos ht).1.trans (boot_ref_pos hu).1.symm
  range t ht := by
    rw [(boot_ref_pos ht).2]
    exact sb.root
  clean t _ hv := nomatch hv
  held t ht := by
    rw [boot_holders] at ht
    rw [(boot_ref_pos ht).2]
    exact h.root.2
  linked := False.elim
  sound := False.elim

theorem boot_files (D : Disk) : Files (boot D) := ⟨fun _ _ => rfl, fun _ h => nomatch h⟩

theorem Call.idle {into : Nat → Prop} {gone : Nat → Nat → Prop} {s₀ : State}
    (h : Call sb m [] into gone s₀ s) : Idle sb .any s := ⟨h.good, h.files, False.elim⟩

/-- What holds in every state of every run from a well-formed image. -/
theorem reach_idle (h : (machine sb dev (WellFormed sb)).Reach s) : Idle sb .any s := by
  refine h.invariant (fun s hs => ?_) fun s a s' _ hi hstep => ?_
  · obtain ⟨D, hD, rfl⟩ := hs
    exact ⟨boot_good hD, boot_files D, False.elim⟩
  · obtain ⟨_, r, hr⟩ := hstep
    exact ((exec_spec (q := False) hi False.elim a.1 a.2).of_ok hr).idle

/-! ## Ownership -/

theorem balloc_free {b : Nat} (h : balloc sb s = .ok (b, s')) : s.disk.bit b = false :=
  ((balloc_spec (n := 0) (fun h : False => h.elim)).of_ok h).2.1

/-- In every state of every run from a well-formed image: a block number held by an allocated
inode is that of a data block, which is marked and held nowhere else; no block below the size is
missing; no call frees a free block; and a block that is handed out is not one that is held. -/
theorem blocks_owned (h : (machine sb dev (WellFormed sb)).Reach s) :
    (∀ r, s.disk.ptr sb r ≠ 0 →
      (sb.dataStart ≤ s.disk.ptr sb r ∧ s.disk.ptr sb r < sb.size) ∧
      s.disk.bit (s.disk.ptr sb r) = true ∧
      ∀ r', s.disk.ptr sb r' = s.disk.ptr sb r → r' = r) ∧
    (∀ i, s.disk.Live sb i → ∀ n < ((s.disk.ino i).size + (BSIZE - 1)) / BSIZE,
      s.disk.addr sb i n ≠ 0) ∧
    (∀ p a, exec sb dev p a s ≠ .error .freeingFree) ∧
    ∀ b s', balloc sb s = .ok (b, s') → ∀ r, s.disk.ptr sb r ≠ 0 → s.disk.ptr sb r ≠ b := by
  have hi := reach_idle h
  have hok := hi.good.disk
  refine ⟨fun r hr => ⟨hok.range r hr, hok.used r hr, fun r' he => ?_⟩, fun i hl n hn => ?_,
    fun p a he => ?_, fun b s' hb r hr he => ?_⟩
  · exact (hok.inj r r' hr he.symm).symm
  · exact hok.nohole i hl n (by dsimp only [BSIZE] at *; omega)
  · exact ((exec_spec (q := False) hi False.elim p a).of_error he).1.1 rfl
  · have hu := hok.used r hr
    rw [he, balloc_free hb] at hu
    cases hu

/-- After `mkdir("a")` on the root image the new directory has block 60 and no other inode has. -/
theorem blocks_owned_mkdir : ∃ s, (machine mkfsSb nullDev (WellFormed mkfsSb)).Reach s ∧
    s.disk.ptr mkfsSb (.direct 2 0) = 60 ∧ s.disk.bit 60 = true ∧
    ∀ r, s.disk.ptr mkfsSb r = 60 → r = .direct 2 0 := by
  obtain ⟨s, hs, hp⟩ := exists_reach mkfsSb nullDev (l := [(0, .mkdir [97])])
    (P := fun s => s.disk.ptr mkfsSb (.direct 2 0) = 60) rootImage_mkfs.wellFormed
    (by decide +kernel)
  have hp := of_decide_eq_true hp
  have h := (blocks_owned hs).1 (.direct 2 0) (by rw [hp]; decide)
  rw [hp] at h
  exact ⟨s, hs, hp, h.2.1, h.2.2⟩

end Xv6.Fs
