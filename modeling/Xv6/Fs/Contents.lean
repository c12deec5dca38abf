import Xv6.Fs.Inodes

/-!
# Contents of files: `bmap`, `readi`, `writei`

`bmap` puts new blocks into the cached inode, and `writei` writes it back only when the
file has grown.  So inside these routines the file is `over t`: the disk with the cached
copy of `t`'s inode in place of its own.  `put t D` is the state whose `over t` is `D`.

Nothing here asks for a file without holes, except where it says that the disk and the
copy agree at the end.
-/

namespace Xv6.Fs

open Function List

variable {sb : Superblock} {dev : Devsw} {m : Mode} {q rm z : Prop} {P : ISlot → Nat}
  {T : List ISlot} {s s' : State} {t : ISlot} {D D' : Disk} {n : Nat}

/-! ## The disk under the cached inode -/

/-- The disk with the cached copy of the inode of `t`. -/
def State.over (s : State) (t : ISlot) : Disk := s.disk.setIno (s.ic t).inum (s.ic t).copy

/-- Blocks, free map and the copy of `t` as in `D`; the inodes on the disk as they were. -/
def State.put (s : State) (t : ISlot) (D : Disk) : State :=
  { s with
    disk := { bit := D.bit, ino := s.disk.ino, blk := D.blk }
    ic := update s.ic t { s.ic t with copy := D.ino (s.ic t).inum } }

/-- As `put`, and the inode has been written back. -/
def State.store (s : State) (t : ISlot) (D : Disk) : State :=
  { s.put t D with disk := D }

theorem put_over (s : State) (t : ISlot) : s.put t (s.over t) = s := by
  simp [State.put, State.over, Disk.setIno]

@[simp] theorem put_copy (s : State) (t : ISlot) (D : Disk) :
    ((s.put t D).ic t).copy = D.ino (s.ic t).inum := by
  simp [State.put]

@[simp] theorem put_inum (s : State) (t : ISlot) (D : Disk) :
    ((s.put t D).ic t).inum = (s.ic t).inum := by
  simp [State.put]

theorem over_put (h : ∀ j, j ≠ (s.ic t).inum → D.ino j = s.disk.ino j) :
    (s.put t D).over t = D := by
  unfold State.over
  rw [put_copy, put_inum]
  have : update s.disk.ino (s.ic t).inum (D.ino (s.ic t).inum) = D.ino := by
    funext j
    by_cases hj : j = (s.ic t).inum
    · rw [hj, update_self]
    · rw [update_of_ne hj, h j hj]
  simp only [Disk.setIno, State.put, this]

theorem over_store : (s.store t D).over t = D := by
  simp [State.over, State.store, State.put, Disk.setIno]

theorem over_eq (h : (s.ic t).copy = s.disk.ino (s.ic t).inum) : s.over t = s.disk := by
  unfold State.over Disk.setIno
  rw [h, update_eq_self]

theorem over_size (s : State) (t : ISlot) :
    ((s.over t).ino (s.ic t).inum).size = (s.ic t).copy.size := by
  rw [State.over, Disk.setIno_self]

theorem over_type (s : State) (t : ISlot) :
    ((s.over t).ino (s.ic t).inum).type = (s.ic t).copy.type := by
  rw [State.over, Disk.setIno_self]

theorem modC_put (s : State) (t : ISlot) (D : Disk) (f : Dinode → Dinode) :
    modC t f (s.put t D) =
      .ok ((), s.put t (D.setIno (s.ic t).inum (f (D.ino (s.ic t).inum)))) := by
  unfold modC
  rw [modI_eq]
  simp [State.setI, State.put, Disk.setIno]

theorem store_eq (h : ∀ j, j ≠ (s.ic t).inum → D.ino j = s.disk.ino j) :
    { s.put t D with disk := (s.put t D).over t } = s.store t D := by
  rw [over_put h]
  rfl

/-- What a write leaves in the state is what it leaves on the disk with the cached copy. -/
theorem over_wrote {off : Nat} {src : List UInt8}
    (hw : Wrote sb (s.ic t).inum off src (s.over t) D') (hs : s' = s.store t D' ∨ s' = s.put t D') :
    s'.over t = D' ∧ (s'.ic t).inum = (s.ic t).inum := by
  rcases hs with rfl | rfl
  · exact ⟨over_store, put_inum s t D'⟩
  · refine ⟨over_put fun j hj => ?_, put_inum s t D'⟩
    rw [hw.other j hj, State.over, Disk.setIno_of_ne _ _ hj]

/-! ## Free blocks -/

/-- There are `n` free blocks. -/
def Room (sb : Superblock) (D : Disk) (n : Nat) : Prop :=
  ∃ l : List Nat, l.Nodup ∧ l.length = n ∧ ∀ b ∈ l, b < sb.size ∧ D.bit b = false

theorem Room.mono {k : Nat} (h : Room sb D n) (hk : k ≤ n) : Room sb D k := by
  obtain ⟨l, hnd, hl, hb⟩ := h
  exact ⟨l.take k, hnd.sublist (take_sublist ..), by rw [length_take]; omega,
    fun b hm => hb b (mem_of_mem_take hm)⟩

theorem Room.congr (h : Room sb D n) (hb : D'.bit = D.bit) : Room sb D' n := by
  obtain ⟨l, hnd, hl, hm⟩ := h
  exact ⟨l, hnd, hl, by rwa [hb]⟩

theorem Room.take {b : Nat} (h : Room sb D (n + 1)) : Room sb (D.take b) n := by
  obtain ⟨l, hnd, hl, hb⟩ := h
  have hne : ∀ x ∈ l.erase b, x < sb.size ∧ (D.take b).bit x = false := by
    intro x hx
    have hxb : x ≠ b := fun h => hnd.not_mem_erase (h ▸ hx)
    obtain ⟨h1, h2⟩ := hb x (mem_of_mem_erase hx)
    refine ⟨h1, ?_⟩
    rw [Disk.take, Disk.setBlk, Disk.setBit_apply, if_neg hxb, h2]
  refine Room.mono ⟨l.erase b, hnd.erase b, rfl, hne⟩ ?_
  have := length_erase_le (a := b) (l := l)
  by_cases hm : b ∈ l
  · rw [length_erase_of_mem hm]
    omega
  · rw [erase_of_not_mem hm]
    omega

theorem Room.exists_free (h : Room sb D (n + 1)) : ∃ b, b < sb.size ∧ D.bit b = false := by
  obtain ⟨l, -, hl, hb⟩ := h
  cases l with
  | nil => cases hl
  | cons b l => exact ⟨b, hb b (mem_cons_self ..)⟩

/-- How reading and writing a file can fail: no free block (if `rm` does not promise one), or a
store outside of a transaction. -/
def Fail (rm : Prop) (tx : Bool) (e : Panic) : Prop :=
  e = .outOfBlocks ∧ ¬ rm ∨ e = .outsideTrans ∧ tx = false

theorem Fail.err {tx : Bool} {e : Panic} (h : Fail rm tx e) : Fault q z e := by
  rcases h with ⟨rfl, -⟩ | ⟨rfl, -⟩ <;> exact Fault.of (by decide)

theorem logWrite_fail {α : Type} {A : α → State → Prop} {k : Unit → M α} {tx : Bool}
    (htx : s.tx = tx) (h : Run (Fail rm tx) A (k ()) s) : Run (Fail rm tx) A (logWrite >>= k) s := by
  unfold logWrite
  refine Run.bind (P := fun _ s' => s' = s) ?_ fun _ _ he => he ▸ h
  refine Run.get_bind (Run.ite (fun _ => Run.pure rfl) fun hf => Run.throw (.inr ⟨rfl, ?_⟩))
  rw [htx] at hf
  exact Bool.eq_false_iff.mpr hf

theorem balloc_spec (hr : rm → Room sb s.disk (n + 1)) :
    Run (Fail rm s.tx) (fun b s' => s' = { s with disk := s.disk.take b } ∧
      s.disk.bit b = false ∧ b < sb.size) (balloc sb) s := by
  unfold balloc
  refine Run.get_bind ?_
  split
  next hnone =>
    refine Run.throw (.inl ⟨rfl, fun h => ?_⟩)
    obtain ⟨b, hb, hf⟩ := (hr h).exists_free
    have := find?_eq_none.mp hnone b (mem_range.mpr hb)
    simp [hf] at this
  next b hb =>
    have hf := find?_some hb
    have hm := mem_range.mp (mem_of_find?_eq_some hb)
    refine Run.modify_bind (logWrite_fail rfl (Run.modify_bind (logWrite_fail rfl ?_)))
    exact Run.pure ⟨rfl, by simpa using hf, hm⟩

/-! ## `bmap` -/

/-- The blocks that are still to be allocated for the indirect slot. -/
def need (sb : Superblock) (D : Disk) (i : Nat) : Nat :=
  if D.slot sb i indSlot = 0 then 1 else 0

theorem mapSlot_spec (ho : Owned sb D) (hl : D.Live sb (s.ic t).inum) (k : Fin (NDIRECT + 1))
    (hr : rm → Room sb D (n + if D.slot sb (s.ic t).inum k = 0 then 1 else 0)) :
    Run (Fail rm s.tx) (fun x s' => ∃ D', s' = s.put t D' ∧ Extends sb (s.ic t).inum D D' ∧
        D'.Live sb (s.ic t).inum ∧ x = D'.slot sb (s.ic t).inum k ∧ x ≠ 0 ∧
        (∀ k', k' ≠ k → D'.slot sb (s.ic t).inum k' = D.slot sb (s.ic t).inum k') ∧
        (D.slot sb (s.ic t).inum k ≠ 0 → D' = D) ∧ (rm → Room sb D' n))
      (mapSlot sb t k) (s.put t D) := by
  generalize hi : (s.ic t).inum = i at *
  have hslot : D.slot sb i k = (D.ino i).addrs k := Disk.slot_of_live hl k
  unfold mapSlot
  refine Run.get_bind (Run.ite (fun h0 => ?_) fun h0 => ?_)
  · rw [put_copy, hi] at h0
    rw [← hslot] at h0
    rw [if_pos h0] at hr
    refine Run.bind (balloc_spec (n := n) (s := s.put t D) fun h => (hr h).congr rfl)
      fun b s' hs => ?_
    obtain ⟨rfl, hb, hbs⟩ := hs
    change D.bit b = false at hb
    have hfr := fresh_take ho hb hbs
    have he := extends_take (i := i) ho hb
    have hl' : (D.take b).Live sb i := hl
    have h0' : (D.take b).slot sb i k = 0 := h0
    have he' := extends_setSlot (k := k) he.owned hfr hl' h0'
    refine Run.bind_eq (modC_put s t (D.take b) fun d => d.setAddr k b) (Run.pure ?_)
    rw [hi]
    have hs : ∀ k', ((D.take b).setIno i (((D.take b).ino i).setAddr k b)).slot sb i k' =
        if k' = k then b else D.slot sb i k' := by
      intro k'
      rw [slot_setAddr hl']
      simp only [true_and]
      rfl
    refine ⟨_, rfl, he.trans he', ?_, ?_, hfr.ne_zero, fun k' hk => ?_, fun hne => absurd h0 hne,
      fun h => ?_⟩
    · exact (live_setIno (d := ((D.take b).ino i).setAddr k b) rfl i).mpr hl'
    · rw [hs, if_pos rfl]
    · rw [hs, if_neg hk]
    · exact (hr h).take.congr rfl
  · rw [put_copy, hi] at h0 ⊢
    rw [← hslot] at h0 ⊢
    refine Run.pure ⟨D, rfl, .refl ho, hl, rfl, h0, fun _ _ => rfl, fun _ => rfl, fun h => ?_⟩
    exact (hr h).mono (Nat.le_add_right ..)

theorem mapEntry_spec (ho : Owned sb D) {j : Fin NINDIRECT}
    (hs : D.slot sb (s.ic t).inum indSlot ≠ 0) (hr : rm → Room sb D (n + 1)) :
    Run (Fail rm s.tx) (fun x s' => ∃ D', s' = s.put t D' ∧ Extends sb (s.ic t).inum D D' ∧
        D'.slot sb (s.ic t).inum indSlot = D.slot sb (s.ic t).inum indSlot ∧
        x = D'.ptr sb (.entry (s.ic t).inum j) ∧ x ≠ 0 ∧
        (D.ptr sb (.entry (s.ic t).inum j) ≠ 0 → D' = D) ∧ (rm → Room sb D' n))
      (mapEntry sb (D.slot sb (s.ic t).inum indSlot) j) (s.put t D) := by
  generalize hi : (s.ic t).inum = i at *
  have hptr : D.ptr sb (.entry i j) = (D.blk (D.slot sb i indSlot)).word j := if_neg hs
  unfold mapEntry
  refine Run.get_bind (Run.ite (fun h0 => ?_) fun h0 => ?_)
  · change (D.blk (D.slot sb i indSlot)).word j = 0 at h0
    rw [← hptr] at h0
    refine Run.bind (balloc_spec (n := n) (s := s.put t D) fun h => (hr h).congr rfl)
      fun b s' hs' => ?_
    obtain ⟨rfl, hb, hbs⟩ := hs'
    change D.bit b = false at hb
    have hfr := fresh_take ho hb hbs
    have he := extends_take (i := i) ho hb
    have h0' : (D.take b).ptr sb (.entry i j) = 0 := (ptr_take ho hb _).trans h0
    have he' := extends_setEntry he.owned hfr hs h0'
    refine Run.modify_bind (logWrite_fail rfl (Run.pure ⟨_, rfl, he.trans he', rfl, ?_,
      hfr.ne_zero, fun hne => absurd h0 hne, fun h => ?_⟩))
    · have hb32 : b < 2 ^ 32 := Nat.lt_trans hbs sb.fits
      rw [ptr_setEntry he.owned hs hb32, if_pos rfl]
    · exact (hr h).take.congr rfl
  · change ¬ (D.blk (D.slot sb i indSlot)).word j = 0 at h0
    refine Run.pure ⟨D, rfl, .refl ho, rfl, hptr.symm, h0, fun _ => rfl, fun h => ?_⟩
    exact (hr h).mono (Nat.le_add_right ..)

/-- The block is there afterwards, and nothing changes if it was there before. -/
theorem bmap_spec (ho : Owned sb D) (hl : D.Live sb (s.ic t).inum) {bn : Nat} (hbn : bn < MAXFILE)
    (hr : rm → Room sb D (n + 1 + need sb D (s.ic t).inum)) :
    Run (Fail rm s.tx) (fun x s' => ∃ D', s' = s.put t D' ∧ Extends sb (s.ic t).inum D D' ∧
        x = D'.addr sb (s.ic t).inum bn ∧ x ≠ 0 ∧
        (D.addr sb (s.ic t).inum bn ≠ 0 → D' = D) ∧
        (rm → Room sb D' (n + need sb D' (s.ic t).inum)))
      (bmap sb t bn) (s.put t D) := by
  unfold bmap
  split
  next hd =>
    have ha : ∀ E : Disk, E.addr sb (s.ic t).inum bn =
        E.slot sb (s.ic t).inum (Fin.castSucc ⟨bn, hd⟩) := fun E =>
      Disk.addr_of_place (Disk.place_direct _ hd)
    refine (mapSlot_spec (n := n + need sb D (s.ic t).inum) ho hl _ fun h => (hr h).mono ?_).mono ?_
    · split <;> omega
    · rintro x _ ⟨D', rfl, he, -, hx, hx0, hk, hsame, hroom⟩
      refine ⟨D', rfl, he, hx.trans (ha D').symm, hx0, fun h => hsame (ha D ▸ h), fun h => ?_⟩
      have := hroom h
      unfold need at this ⊢
      rwa [hk _ (indSlot_ne _)]
  next hd =>
    have hi : bn - NDIRECT < NINDIRECT := by
      dsimp only [MAXFILE, NDIRECT, NINDIRECT] at *
      omega
    rw [if_pos hi]
    have ha : ∀ E : Disk, E.addr sb (s.ic t).inum bn =
        E.ptr sb (.entry (s.ic t).inum ⟨bn - NDIRECT, hi⟩) := fun E =>
      Disk.addr_of_place (Disk.place_entry _ hd hi)
    refine Run.bind (mapSlot_spec (n := n + 1) ho hl indSlot hr) ?_
    rintro a _ ⟨D₁, rfl, he₁, hl₁, rfl, ha0, -, hsame₁, hroom₁⟩
    refine (mapEntry_spec (j := ⟨bn - NDIRECT, hi⟩) he₁.owned ha0 hroom₁).mono ?_
    rintro x _ ⟨D', rfl, he, hslot, hx, hx0, hsame, hroom⟩
    refine ⟨D', rfl, he₁.trans he, hx.trans (ha D').symm, hx0, fun h => ?_, fun h => ?_⟩
    · have hne : D.slot sb (s.ic t).inum indSlot ≠ 0 := by
        intro h0
        rw [ha] at h
        exact h (if_pos h0)
      obtain rfl := hsame₁ hne
      exact hsame (ha D₁ ▸ h)
    · rw [need, hslot, if_neg ha0]
      exact hroom h

/-! ## The loops -/

/-- The number of blocks that the bytes `[off, off + n)` lie in. -/
def span (off n : Nat) : Nat := if n = 0 then 0 else (off + n - 1) / BSIZE - off / BSIZE + 1

/-- What one pass handles. -/
abbrev chunk (off n : Nat) : Nat := min n (BSIZE - off % BSIZE)

theorem chunk_pos (hn : n ≠ 0) (off : Nat) : 0 < chunk off n := by
  dsimp only [chunk, BSIZE]
  omega

theorem chunk_le (off n : Nat) : chunk off n ≤ n := Nat.min_le_left ..

theorem span_step {off : Nat} (hn : n ≠ 0) :
    span off n = span (off + chunk off n) (n - chunk off n) + 1 := by
  unfold span chunk
  rw [if_neg hn]
  dsimp only [BSIZE]
  split <;> omega

/-- The bytes `[off, off + n)` lie in blocks that are there. -/
def Disk.Mapped (D : Disk) (sb : Superblock) (i off n : Nat) : Prop :=
  ∀ k, n ≠ 0 → off < (k + 1) * BSIZE → k * BSIZE < off + n → D.addr sb i k ≠ 0

theorem Disk.Mapped.first {i off : Nat} (h : D.Mapped sb i off n) (hn : n ≠ 0) :
    D.addr sb i (off / BSIZE) ≠ 0 := by
  refine h _ hn ?_ ?_
  · dsimp only [BSIZE]; omega
  · dsimp only [BSIZE]; omega

theorem Disk.Mapped.rest {i off : Nat} (h : D.Mapped sb i off n) :
    D.Mapped sb i (off + chunk off n) (n - chunk off n) := by
  intro k hk h1 h2
  dsimp only [chunk, BSIZE] at *
  exact h k (by omega) (by dsimp only [BSIZE]; omega) (by dsimp only [BSIZE]; omega)

theorem bytes_append (D : Disk) (i off a b : Nat) :
    D.bytes sb i off (a + b) = D.bytes sb i off a ++ D.bytes sb i (off + a) b := by
  unfold Disk.bytes
  rw [range_add, map_append, map_map]
  congr 1
  refine map_congr_left fun k _ => ?_
  simp only [comp_apply, Nat.add_assoc]

theorem bytes_congr {i off n : Nat} (h : ∀ o, off ≤ o → o < off + n → D'.data sb i o = D.data sb i o) :
    D'.bytes sb i off n = D.bytes sb i off n := by
  unfold Disk.bytes
  refine map_congr_left fun k hk => h _ (Nat.le_add_right ..) ?_
  have := mem_range.mp hk
  omega

/-- The bytes of one pass. -/
theorem blk_chunk {i off : Nat} (h : D.addr sb i (off / BSIZE) ≠ 0) :
    (List.range (chunk off n)).map (fun k => D.blk (D.addr sb i (off / BSIZE)) (off % BSIZE + k)) =
      D.bytes sb i off (chunk off n) := by
  unfold Disk.bytes
  refine map_congr_left fun k hk => ?_
  have hk := mem_range.mp hk
  have h1 : (off + k) / BSIZE = off / BSIZE := by dsimp only [chunk, BSIZE] at *; omega
  have h2 : (off + k) % BSIZE = off % BSIZE + k := by dsimp only [chunk, BSIZE] at *; omega
  unfold Disk.data
  rw [h1, h2, if_neg h]

theorem writeLoop_spec {i : Nat} (hi : (s.ic t).inum = i) :
    ∀ (fuel off : Nat) (src : List UInt8) (D : Disk), src.length ≤ fuel →
      off + src.length ≤ MAXFILE * BSIZE → Owned sb D → D.Live sb i →
      (rm → Room sb D (span off src.length + need sb D i)) →
      Run (Fail rm s.tx) (fun o s' => ∃ D', s' = s.put t D' ∧ o = off + src.length ∧
        Writes sb i off src D D' ∧ (D.Mapped sb i off src.length → D'.ino = D.ino))
        (writeLoop sb t fuel off src) (s.put t D) := by
  subst hi
  intro fuel
  induction fuel with
  | zero =>
    intro off src D hn _ ho _ _
    obtain rfl : src = [] := length_eq_zero_iff.mp (by omega)
    exact Run.pure ⟨D, rfl, rfl, .nil ho off, fun _ => rfl⟩
  | succ fuel ih =>
    intro off src D hn hmax ho hl hr
    unfold writeLoop
    refine Run.ite (fun h0 => ?_) fun h0 => ?_
    · subst h0
      exact Run.pure ⟨D, rfl, rfl, .nil ho off, fun _ => rfl⟩
    have h0' : src.length ≠ 0 := fun h => h0 (length_eq_zero_iff.mp h)
    have hbn : off / BSIZE < MAXFILE := by dsimp only [MAXFILE, NDIRECT, NINDIRECT, BSIZE] at *; omega
    have hpos := chunk_pos h0' off
    have hle := chunk_le off src.length
    rw [span_step h0'] at hr
    refine Run.bind (bmap_spec ho hl hbn hr) ?_
    rintro a _ ⟨D₁, rfl, he, rfl, ha, hsame, hroom⟩
    have hl₁ : D₁.Live sb (s.ic t).inum := (Disk.live_congr (he.type_eq _)).mpr hl
    -- the state after the `memmove`
    let D₂ := D₁.setBlk (D₁.addr sb (s.ic t).inum (off / BSIZE))
      ((D₁.blk (D₁.addr sb (s.ic t).inum (off / BSIZE))).memmove (off % BSIZE)
        (src.take (chunk off src.length)))
    have hp : ∀ r, D₂.ptr sb r = D₁.ptr sb r := ptr_setData he.owned ha _
    have ho₂ : Owned sb D₂ := owned_setData he.owned ha _
    have hlen : (src.take (chunk off src.length)).length = chunk off src.length := by
      rw [length_take]
      omega
    have hdrop : (src.drop (chunk off src.length)).length = src.length - chunk off src.length :=
      length_drop ..
    refine Run.modify_bind (logWrite_fail rfl ?_)
    refine (ih (off + chunk off src.length) (src.drop (chunk off src.length)) D₂ (by omega)
      (by omega) ho₂ hl₁ fun h => ?_).mono ?_
    · rw [hdrop]
      exact (hroom h).congr rfl
    · rintro o _ ⟨D₃, rfl, rfl, hw, hino⟩
      have hcons := Writes.cons (l := src.take (chunk off src.length)) he ha
        (by rw [hlen]; exact Nat.min_le_right ..) (by rw [hlen]; exact hw)
      rw [take_append_drop] at hcons
      refine ⟨D₃, rfl, by omega, hcons, fun hm => ?_⟩
      obtain rfl := hsame (hm.first h0')
      refine (hino ?_).trans rfl
      rw [hdrop]
      intro k hk h1 h2
      rw [Disk.addr_congr hp]
      exact hm.rest k hk h1 h2

/-! ## Reading blocks that are there -/

theorem over_live (hl : (s.over t).Live sb (s.ic t).inum) (k : Fin (NDIRECT + 1)) :
    (s.over t).slot sb (s.ic t).inum k = (s.ic t).copy.addrs k := by
  rw [Disk.slot_of_live hl, State.over, Disk.setIno_self]

theorem bmap_eq (hl : (s.over t).Live sb (s.ic t).inum) {bn : Nat}
    (ha : (s.over t).addr sb (s.ic t).inum bn ≠ 0) :
    bmap sb t bn s = .ok ((s.over t).addr sb (s.ic t).inum bn, s) := by
  have hmap : ∀ k, (s.over t).slot sb (s.ic t).inum k ≠ 0 →
      mapSlot sb t k s = .ok ((s.over t).slot sb (s.ic t).inum k, s) := by
    intro k hk
    rw [over_live hl] at hk ⊢
    change (if (s.ic t).copy.addrs k = 0 then _ else _ : M Nat) s = _
    rw [if_neg hk]
    rfl
  unfold bmap
  split
  next hd =>
    have he : (s.over t).addr sb (s.ic t).inum bn = (s.over t).slot sb (s.ic t).inum _ :=
      Disk.addr_of_place (Disk.place_direct _ hd)
    rw [he] at ha ⊢
    exact hmap _ ha
  next hd =>
    by_cases hi : bn - NDIRECT < NINDIRECT
    · have he : (s.over t).addr sb (s.ic t).inum bn =
          (s.over t).ptr sb (.entry (s.ic t).inum ⟨bn - NDIRECT, hi⟩) :=
        Disk.addr_of_place (Disk.place_entry _ hd hi)
      have hs : (s.over t).slot sb (s.ic t).inum indSlot ≠ 0 := by
        intro h0
        rw [he] at ha
        exact ha (if_pos h0)
      have hw : (s.over t).ptr sb (.entry (s.ic t).inum ⟨bn - NDIRECT, hi⟩) =
          (s.disk.blk ((s.over t).slot sb (s.ic t).inum indSlot)).word (bn - NDIRECT) :=
        if_neg hs
      rw [if_pos hi]
      change (mapSlot sb t indSlot s >>= fun x => mapEntry sb x.1 _ x.2) = _
      rw [hmap _ hs]
      change (if (s.disk.blk _).word (bn - NDIRECT) = 0 then _ else _ : M Nat) s = _
      rw [he, hw] at ha
      rw [if_neg ha, he, hw]
      rfl
    · refine absurd ?_ ha
      simp [Disk.addr, Disk.place, hd, hi]

theorem readLoop_eq (hl : (s.over t).Live sb (s.ic t).inum) :
    ∀ (fuel off n : Nat), n ≤ fuel → (s.over t).Mapped sb (s.ic t).inum off n →
      readLoop sb t fuel off n s = .ok ((s.over t).bytes sb (s.ic t).inum off n, s) := by
  intro fuel
  induction fuel with
  | zero =>
    intro off n hn _
    obtain rfl : n = 0 := by omega
    rfl
  | succ fuel ih =>
    intro off n hn hm
    unfold readLoop
    by_cases h0 : n = 0
    · subst h0
      rfl
    have hpos := chunk_pos h0 off
    have hle := chunk_le off n
    have ha := hm.first h0
    rw [if_neg h0]
    change (bmap sb t (off / BSIZE) s >>= fun x => _) = _
    rw [bmap_eq hl ha]
    change (readLoop sb t fuel (off + chunk off n) (n - chunk off n) s >>= fun x => _) = _
    rw [ih _ _ (by omega) hm.rest]
    change Except.ok ((List.range (chunk off n)).map (fun k =>
      (s.over t).blk ((s.over t).addr sb (s.ic t).inum (off / BSIZE)) (off % BSIZE + k)) ++ _, s) = _
    rw [blk_chunk ha, ← bytes_append, Nat.add_sub_cancel' hle]

/-! ## `readi` and `writei` -/

/-- The offset or the length is out of range. -/
def Rejected (d : Dinode) (off n : Nat) : Prop := d.size < off ∨ 2 ^ 32 ≤ off + n

instance (d : Dinode) (off n : Nat) : Decidable (Rejected d off n) :=
  inferInstanceAs (Decidable (_ ∨ _))

theorem readi_reject {off : Nat} (ht : (s.ic t).copy.type ≠ T_DEV)
    (h : Rejected (s.ic t).copy off n) : readi sb dev t off n s = .ok (none, s) := by
  change (if (s.ic t).copy.type = T_DEV then _ else
    if Rejected (s.ic t).copy off n then _ else _ : M _) s = _
  rw [if_neg ht, if_pos h]
  rfl

theorem writei_reject {off : Nat} {src : List UInt8} (ht : (s.ic t).copy.type ≠ T_DEV)
    (h : Rejected (s.ic t).copy off src.length) : writei sb dev t src off s = .ok (none, s) := by
  change (if (s.ic t).copy.type = T_DEV then _ else
    if Rejected (s.ic t).copy off src.length then _ else _ : M _) s = _
  rw [if_neg ht, if_pos h]
  rfl

/-- A file does not grow beyond what an inode can hold. -/
theorem writei_too_big {off : Nat} {src : List UInt8} (ht : (s.ic t).copy.type ≠ T_DEV)
    (h : MAXFILE * BSIZE < off + src.length) : writei sb dev t src off s = .ok (none, s) := by
  by_cases hrej : Rejected (s.ic t).copy off src.length
  · exact writei_reject ht hrej
  · show (if (s.ic t).copy.type = T_DEV then _ else
      if Rejected (s.ic t).copy off src.length then _ else
        if MAXFILE * BSIZE < off + src.length then _ else _ : M _) s = _
    rw [if_neg ht, if_neg hrej, if_pos h]
    rfl

/-- What `readi` clips the length to. -/
abbrev clip (size off n : Nat) : Nat := if size < off + n then size - off else n

theorem readi_eq {off : Nat} (hl : (s.over t).Live sb (s.ic t).inum)
    (ht : (s.ic t).copy.type ≠ T_DEV) (h : ¬ Rejected (s.ic t).copy off n)
    (hm : (s.over t).Mapped sb (s.ic t).inum off (clip (s.ic t).copy.size off n)) :
    readi sb dev t off n s =
      .ok (some ((s.over t).bytes sb (s.ic t).inum off (clip (s.ic t).copy.size off n)), s) := by
  change (if (s.ic t).copy.type = T_DEV then _ else
    if Rejected (s.ic t).copy off n then _ else _ : M _) s = _
  rw [if_neg ht, if_neg h]
  change (readLoop sb t (clip (s.ic t).copy.size off n) off (clip (s.ic t).copy.size off n) s >>=
    fun x => _) = _
  rw [readLoop_eq hl _ _ _ (Nat.le_refl _) hm]
  rfl

section
variable {i off : Nat} {src : List UInt8}

theorem Writes.wrote (h : Writes sb i off src D D') (hle : off + src.length ≤ (D.ino i).size) :
    Wrote sb i off src D D' where
  owned := h.owned
  other := h.other
  self := by
    have hs := h.self
    have : (D'.ino i).size = (D.ino i).size := by rw [← hs]
    rw [← this]
    exact hs
  size := by
    have : (D'.ino i).size = (D.ino i).size := by rw [← h.self]
    omega
  addr := h.addr
  mapped := h.mapped
  data := h.data

theorem Writes.grown (h : Writes sb i off src D D') (hlt : (D.ino i).size < off + src.length) :
    Wrote sb i off src D (D'.setIno i { D'.ino i with size := off + src.length }) := by
  have hp : ∀ r, (D'.setIno i { D'.ino i with size := off + src.length }).ptr sb r =
      D'.ptr sb r :=
    fun r => ptr_setMeta (d := { D'.ino i with size := off + src.length }) rfl rfl r
  refine ⟨h.owned.congr hp rfl, fun j hj => ?_, ?_, ?_, fun j n hn => ?_, fun n => ?_,
    fun j o => ?_⟩
  · rw [Disk.setIno_of_ne _ _ hj, h.other j hj]
  · have hs : (D'.ino i).size = (D.ino i).size := by rw [← h.self]
    rw [Disk.setIno_self, ← hs]
    exact h.self
  · rw [Disk.setIno_self]
    exact (Nat.max_eq_right hlt.le).symm
  · rw [Disk.addr_congr hp, h.addr j n hn]
  · rw [Disk.addr_congr hp]
    exact h.mapped n
  · rw [data_of_ptr hp rfl, h.data]

end

theorem writei_spec {off : Nat} {src : List UInt8} (ho : Owned sb (s.over t))
    (hl : (s.over t).Live sb (s.ic t).inum) (ht : (s.ic t).copy.type ≠ T_DEV)
    (hoff : off ≤ (s.ic t).copy.size) (hmax : off + src.length ≤ MAXFILE * BSIZE)
    (hr : rm → Room sb (s.over t) (span off src.length + need sb (s.over t) (s.ic t).inum)) :
    Run (Fail rm s.tx) (fun r s' => r = some src.length ∧ ∃ D',
        Wrote sb (s.ic t).inum off src (s.over t) D' ∧ (s' = s.store t D' ∨ s' = s.put t D' ∧
          off + src.length ≤ (s.ic t).copy.size ∧
          ((s.over t).Mapped sb (s.ic t).inum off src.length → D'.ino = (s.over t).ino)))
      (writei sb dev t src off) s := by
  have hsize : ((s.over t).ino (s.ic t).inum).size = (s.ic t).copy.size := by
    rw [State.over, Disk.setIno_self]
  have hrej : ¬ Rejected (s.ic t).copy off src.length := by
    unfold Rejected
    dsimp only [MAXFILE, NDIRECT, NINDIRECT, BSIZE] at hmax
    omega
  unfold writei
  refine Run.get_bind (Run.ite (fun h0 => absurd h0 ht) fun _ => ?_)
  refine Run.ite (fun h0 => absurd h0 hrej) fun _ => ?_
  refine Run.ite (fun h0 => absurd h0 (by omega)) fun _ => ?_
  have hloop := writeLoop_spec (s := s) (t := t) rfl _ off src _ (Nat.le_refl _) hmax ho hl hr
  rw [put_over] at hloop
  refine Run.bind hloop ?_
  rintro o s' ⟨D', rfl, rfl, hw, hsame⟩
  have hother : ∀ j, j ≠ (s.ic t).inum → D'.ino j = s.disk.ino j := by
    intro j hj
    rw [hw.other j hj, State.over, Disk.setIno_of_ne _ _ hj]
  refine Run.ite (fun hgrow => ?_) fun hgrow => ?_
  · have hwrote := hw.grown (hsize ▸ hgrow.2)
    refine Run.bind_eq (modC_put ..) (Run.bind (P := fun _ s' => s' = s.store t (D'.setIno
      (s.ic t).inum { D'.ino (s.ic t).inum with size := off + src.length })) ?_ ?_)
    · have hst := store_eq (s := s) (t := t) (D := D'.setIno (s.ic t).inum
        { D'.ino (s.ic t).inum with size := off + src.length }) fun j hj => by
          rw [Disk.setIno_of_ne _ _ hj, hother j hj]
      unfold iupdate
      refine Run.get_bind (Run.modify_bind ?_)
      rw [← hst]
      unfold logWrite
      refine Run.get_bind (Run.ite (fun _ => Run.pure rfl) fun hf => Run.throw (.inr ⟨rfl, ?_⟩))
      exact Bool.eq_false_iff.mpr hf
    · rintro _ _ rfl
      exact Run.pure ⟨rfl, _, hwrote, .inl rfl⟩
  · have hle : off + src.length ≤ (s.ic t).copy.size := by omega
    exact Run.pure ⟨rfl, D', hw.wrote (hsize ▸ hle), .inr ⟨rfl, hle, hsame⟩⟩

/-! ## Under the invariant -/

theorem Ok.size_le (h : Ok sb D) {i : Nat} (hl : D.Live sb i) :
    (D.ino i).size ≤ MAXFILE * BSIZE := by
  by_contra hlt
  refine h.nohole i hl MAXFILE (by omega) ?_
  rw [Disk.addr, Disk.place, dif_neg (by decide), dif_neg (by decide)]
  rfl

/-- What is below the size is there. -/
theorem Ok.mapped (h : Ok sb D) {i off : Nat} (hl : D.Live sb i) (hle : off + n ≤ (D.ino i).size) :
    D.Mapped sb i off n := by
  intro k _ _ hk
  exact h.nohole i hl k (by omega)

section
variable (h : Good sb m P T s) (ht : 0 < P t + T.count t) (hv : (s.ic t).valid = true)
include h ht hv

theorem readi_good {off : Nat} (hd : (s.ic t).copy.type ≠ T_DEV) :
    readi sb dev t off n s = .ok (if Rejected (s.ic t).copy off n then none else
      some (s.disk.bytes sb (s.ic t).inum off (clip (s.ic t).copy.size off n)), s) := by
  have hc := h.copy ht hv
  have hl := h.live ht hv
  by_cases hr : Rejected (s.ic t).copy off n
  · rw [if_pos hr, readi_reject hd hr]
  · rw [if_neg hr]
    have hm : (s.over t).Mapped sb (s.ic t).inum off (clip (s.ic t).copy.size off n) := by
      rw [over_eq hc]
      refine h.disk.mapped hl ?_
      rw [hc] at hr ⊢
      unfold Rejected at hr
      unfold clip
      split <;> omega
    rw [readi_eq (by rwa [over_eq hc]) hd hr hm, over_eq hc]

/-- One inode changes, on the disk and in the cache. -/
theorem Good.store (hok : Ok sb D) (hother : ∀ j, j ≠ (s.ic t).inum → D.ino j = s.disk.ino j)
    (htype : (D.ino (s.ic t).inum).type = (s.disk.ino (s.ic t).inum).type)
    (hlk : m.linked → (D.ino (s.ic t).inum).nlink = 0 →
      (s.disk.ino (s.ic t).inum).nlink = 0 ∨ 0 < P t)
    (hnd : m.sound → D.NoDangle sb) :
    Good sb m P T (s.store t D) ∧ Frame P T s (s.store t D) := by
  have hpos := h.ref_pos ht
  have hic : ∀ u, ((s.store t D).ic u).ref = (s.ic u).ref ∧
      ((s.store t D).ic u).inum = (s.ic u).inum ∧
      ((s.store t D).ic u).valid = (s.ic u).valid ∧
      (u ≠ t → (s.store t D).ic u = s.ic u) := by
    intro u
    by_cases hu : u = t
    · subst hu
      simp [State.store, State.put]
    · simp [State.store, State.put, update_of_ne hu]
  have htypes : ∀ j, (D.ino j).type = (s.disk.ino j).type := by
    intro j
    by_cases hj : j = (s.ic t).inum
    · rw [hj, htype]
    · rw [hother j hj]
  have htype' : ∀ u, (D.ino ((s.store t D).ic u).inum).type =
      (s.disk.ino (s.ic u).inum).type := by
    intro u
    rw [(hic u).2.1, htypes]
  have hlive : ∀ j, D.Live sb j ↔ s.disk.Live sb j := fun j => Disk.live_congr (htypes j)
  refine ⟨⟨hok, fun u => ?_, fun u v hu hv' => ?_, fun u hu => ?_, fun u hu hv' => ?_,
    fun u hu => ?_, fun hm i hi h0 => ?_, fun hs => ⟨hnd hs, ?_, fun u hu => ?_⟩⟩,
    ⟨rfl, rfl, fun u _ => (hic u).2.1, fun u _ hv' => ?_, fun u _ _ => htypes _⟩⟩
  · rw [(hic u).1]
    exact h.ref u
  · rw [(hic u).1] at hu
    rw [(hic v).1] at hv'
    rw [(hic u).2.1, (hic v).2.1]
    exact h.uniq u v hu hv'
  · rw [(hic u).1] at hu
    rw [(hic u).2.1]
    exact h.range u hu
  · change _ = D.ino _ ∧ (D.ino _).type ≠ 0
    rw [(hic u).1] at hu
    rw [(hic u).2.2.1] at hv'
    rw [htype' u]
    refine ⟨?_, (h.clean u hu hv').2⟩
    by_cases hut : u = t
    · subst hut
      simp [State.store, State.put]
    · rw [(hic u).2.2.2 hut, hother _ fun hi => hut (h.uniq u t hu hpos hi)]
      exact (h.clean u hu hv').1
  · change (D.ino _).type ≠ 0
    rw [htype' u]
    exact h.held u hu
  · change D.Live sb i at hi
    change (D.ino i).nlink = 0 at h0
    by_cases hit : i = (s.ic t).inum
    · subst hit
      rcases hlk hm h0 with h0' | hP
      · obtain ⟨u, hu, hP⟩ := h.linked hm _ ((hlive _).mp hi) h0'
        exact ⟨u, (hic u).2.1.trans hu, hP⟩
      · exact ⟨t, (hic t).2.1, hP⟩
    · rw [hother i hit] at h0
      obtain ⟨u, hu, hP⟩ := h.linked hm i ((hlive i).mp hi) h0
      exact ⟨u, (hic u).2.1.trans hu, hP⟩
  · exact (hlive _).mpr (h.sound hs).root
  · change D.Live sb _
    rw [(hic u).1] at hu
    rw [(hic u).2.1, hlive]
    exact (h.sound hs).cached u hu
  · rw [(hic u).2.2.1]
    exact hv'

variable {off : Nat} {src : List UInt8}
  (hdir : (s.disk.ino (s.ic t).inum).type = T_DIR → off % DESIZE = 0 ∧ src.length = DESIZE ∧
    (Dirent.decode src).inum < sb.ninodes ∧
    (m.sound → (Dirent.decode src).inum ≠ 0 → s.disk.Live sb (Dirent.decode src).inum))
include hdir

/-- An entry that is written names an allocated inode. -/
theorem Good.wrote_noDangle (hw : Wrote sb (s.ic t).inum off src s.disk D)
    (hoff : off ≤ (s.disk.ino (s.ic t).inum).size) (hs : m.sound) : D.NoDangle sb := by
  intro i hi hd k hk hne
  rw [hw.live] at hi ⊢
  rw [hw.type_eq] at hd
  by_cases hit : i = (s.ic t).inum
  · subst hit
    obtain ⟨h1, h2, h3, h4⟩ := hdir hd
    have hoff' : off = DESIZE * (off / DESIZE) := by dsimp only [DESIZE] at *; omega
    rw [hw.dirent hoff' h2] at hne ⊢
    split at hne
    next hk' => rw [if_pos hk']; exact h4 hs hne
    next hk' =>
      rw [if_neg hk']
      refine (h.sound hs).entry _ hi hd k ?_ hne
      rw [hw.entries hoff' h2] at hk
      have := h.disk.dirsize _ hi hd
      unfold Disk.entries at *
      dsimp only [DESIZE] at *
      omega
  · rw [(SameDir.wrote hw hit).dirent] at hne ⊢
    refine (h.sound hs).entry _ hi hd k ?_ hne
    unfold Disk.entries at hk
    rwa [hw.other i hit] at hk

/-- The invariant once the bytes are written. -/
theorem Good.wrote (hw : Wrote sb (s.ic t).inum off src s.disk D)
    (hoff : off ≤ (s.disk.ino (s.ic t).inum).size) :
    Good sb m P T (s.store t D) ∧ Frame P T s (s.store t D) := by
  refine h.store ht hv ?_ hw.other (hw.type_eq _) (fun _ h0 => .inl ((hw.nlink_eq _).symm.trans h0))
    (h.wrote_noDangle ht hv hdir hw hoff)
  exact h.disk.wrote hw hoff fun hd => ⟨(hdir hd).1, (hdir hd).2.1, (hdir hd).2.2.1⟩

theorem writei_good :
    Run (Fault q z) (fun r s' => Good sb m P T s' ∧ Frame P T s s' ∧
        (s' = s ∧ (r = none ∧ (off ≤ (s.ic t).copy.size → MAXFILE * BSIZE < off + src.length) ∨
            (s.ic t).copy.type = T_DEV) ∨ r = some src.length ∧
          off ≤ (s.disk.ino (s.ic t).inum).size ∧
          Wrote sb (s.ic t).inum off src s.disk s'.disk ∧ s' = s.store t s'.disk))
      (writei sb dev t src off) s := by
  have hc := h.copy ht hv
  have hl := h.live ht hv
  by_cases hd : (s.ic t).copy.type = T_DEV
  · unfold writei
    refine Run.get_bind (Run.ite (fun _ => ?_) fun h0 => absurd hd h0)
    exact Run.ite (fun _ => Run.pure ⟨h, .refl, .inl ⟨rfl, .inr hd⟩⟩)
      fun _ => Run.pure ⟨h, .refl, .inl ⟨rfl, .inr hd⟩⟩
  by_cases hr : Rejected (s.ic t).copy off src.length
  · refine Run.of_eq (writei_reject hd hr) ⟨h, .refl, .inl ⟨rfl, .inl ⟨rfl, fun hoff => ?_⟩⟩⟩
    unfold Rejected at hr
    dsimp only [MAXFILE, NDIRECT, NINDIRECT, BSIZE]
    omega
  by_cases hmax : off + src.length ≤ MAXFILE * BSIZE
  · have hoff : off ≤ (s.ic t).copy.size := by
      unfold Rejected at hr
      omega
    refine ((writei_spec (by rw [over_eq hc]; exact h.disk.toOwned) (by rwa [over_eq hc]) hd hoff
      hmax (False.elim : False → _)).mono ?_).error_mono fun _ => Fail.err
    rintro r s' ⟨rfl, D', hw, hs⟩
    rw [over_eq hc] at hw hs
    -- a file without holes gets no block that is not written back
    have hst : s' = s.store t D' := by
      rcases hs with rfl | ⟨rfl, hle, hino⟩
      · rfl
      · have := hino (h.disk.mapped hl (hc ▸ hle))
        unfold State.store State.put
        rw [← this]
    subst hst
    have := Good.wrote h ht hv hdir hw (hc ▸ hoff)
    exact ⟨this.1, this.2, .inr ⟨rfl, hc ▸ hoff, hw, rfl⟩⟩
  · have hbig : MAXFILE * BSIZE < off + src.length := by omega
    exact Run.of_eq (writei_too_big hd hbig) ⟨h, .refl, .inl ⟨rfl, .inl ⟨rfl, fun _ => hbig⟩⟩⟩

end

end Xv6.Fs
