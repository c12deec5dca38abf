import Xv6.Fs.Disk

/-!
# Block ownership

`Owned`: every block number that an inode holds is a data block, is marked in the
free map, and is held at one place only.  Each change that the routines make to the
disk is described by what it does to `ptr`, `addr` and `data`, and ownership is
derived from that.
-/

namespace Xv6.Fs

open Function

variable {sb : Superblock} {D D' : Disk} {n : Nat} {r : Ptr}

structure Owned (sb : Superblock) (D : Disk) : Prop where
  range : ∀ r, D.ptr sb r ≠ 0 → sb.dataStart ≤ D.ptr sb r ∧ D.ptr sb r < sb.size
  used : ∀ r, D.ptr sb r ≠ 0 → D.bit (D.ptr sb r) = true
  inj : ∀ r r', D.ptr sb r ≠ 0 → D.ptr sb r = D.ptr sb r' → r = r'
  /-- The blocks before the data are never handed out. -/
  meta_used : ∀ b, b < sb.dataStart → D.bit b = true

theorem Superblock.dataStart_pos (sb : Superblock) : 0 < sb.dataStart :=
  Nat.sub_pos_of_lt sb.meta_pos

/-! ## Reading the disk after a store -/

namespace Disk

@[simp] theorem setIno_self (D : Disk) (i : Nat) (d : Dinode) : (D.setIno i d).ino i = d :=
  update_self ..

theorem setIno_of_ne (D : Disk) {i j : Nat} (d : Dinode) (h : j ≠ i) :
    (D.setIno i d).ino j = D.ino j :=
  update_of_ne h ..

@[simp] theorem setBlk_self (D : Disk) (b : Nat) (v : Bytes) : (D.setBlk b v).blk b = v :=
  update_self ..

theorem setBlk_of_ne (D : Disk) {a b : Nat} (v : Bytes) (h : a ≠ b) :
    (D.setBlk b v).blk a = D.blk a :=
  update_of_ne h ..

theorem setBit_apply (D : Disk) (a b : Nat) (u : Bool) :
    (D.setBit b u).bit a = if a = b then u else D.bit a :=
  update_apply ..

theorem live_congr {i : Nat} (h : (D'.ino i).type = (D.ino i).type) :
    D'.Live sb i ↔ D.Live sb i := by
  rw [Live, Live, h]

theorem slot_of_live {i : Nat} (h : D.Live sb i) (k : Fin (NDIRECT + 1)) :
    D.slot sb i k = (D.ino i).addrs k := if_pos h

theorem slot_of_not_live {i : Nat} (h : ¬ D.Live sb i) (k : Fin (NDIRECT + 1)) :
    D.slot sb i k = 0 := if_neg h

theorem slot_congr {i : Nat} (h : D'.ino i = D.ino i) (k : Fin (NDIRECT + 1)) :
    D'.slot sb i k = D.slot sb i k := by
  have hl : D'.Live sb i ↔ D.Live sb i := live_congr (by rw [h])
  simp [slot, hl, h]

/-! ## Places -/

theorem place_ino {i : Nat} (h : place i n = some r) : r.ino = i := by
  unfold place at h
  split at h
  · cases h; rfl
  · split at h <;> cases h
    rfl

theorem place_ne_indirect {i j : Nat} (h : place i n = some (.indirect j)) : False := by
  unfold place at h
  split at h
  · cases h
  · split at h <;> cases h

theorem place_inj {i j m : Nat} (h : place i n = some r) (h' : place j m = some r) :
    i = j ∧ n = m := by
  unfold place at h h'
  split at h
  next hn =>
    cases h
    split at h'
    next hm =>
      injection h' with h'
      injection h' with h1 h2
      exact ⟨h1.symm, (Fin.mk.inj h2).symm⟩
    next => split at h' <;> cases h'
  next hn =>
    split at h <;> cases h
    split at h'
    · cases h'
    next hm =>
      split at h'
      next =>
        injection h' with h'
        injection h' with h1 h2
        have := Fin.mk.inj h2
        exact ⟨h1.symm, by omega⟩
      · cases h'

theorem place_direct (i : Nat) (h : n < NDIRECT) : place i n = some (.direct i ⟨n, h⟩) :=
  dif_pos h

theorem place_entry (i : Nat) (h : ¬ n < NDIRECT) (h' : n - NDIRECT < NINDIRECT) :
    place i n = some (.entry i ⟨n - NDIRECT, h'⟩) := by
  rw [place, dif_neg h, dif_pos h']

theorem addr_of_place {i : Nat} (h : place i n = some r) : D.addr sb i n = D.ptr sb r := by
  simp [addr, h]

theorem place_of_addr {i : Nat} (h : D.addr sb i n ≠ 0) :
    ∃ r, place i n = some r ∧ D.ptr sb r = D.addr sb i n := by
  unfold addr at h ⊢
  cases hp : place i n with
  | none => simp [hp] at h
  | some r => exact ⟨r, rfl, rfl⟩

theorem addr_congr (h : ∀ r, D'.ptr sb r = D.ptr sb r) (i n : Nat) :
    D'.addr sb i n = D.addr sb i n := by
  unfold addr
  cases place i n with
  | none => rfl
  | some r => exact h r

/-- A free inode holds nothing. -/
theorem ptr_of_not_live (h : ¬ D.Live sb r.ino) : D.ptr sb r = 0 := by
  cases r with
  | direct i k => exact slot_of_not_live h _
  | indirect i => exact slot_of_not_live h _
  | entry i j => exact if_pos (slot_of_not_live h _)

/-- What is held at `r` depends on `r`'s inode and its indirect block. -/
theorem ptr_congr {r : Ptr} (hi : D'.ino r.ino = D.ino r.ino)
    (hb : D.slot sb r.ino indSlot ≠ 0 →
      D'.blk (D.slot sb r.ino indSlot) = D.blk (D.slot sb r.ino indSlot)) :
    D'.ptr sb r = D.ptr sb r := by
  cases r with
  | direct i k => exact slot_congr hi _
  | indirect i => exact slot_congr hi _
  | entry i j =>
    have hs : D'.slot sb i indSlot = D.slot sb i indSlot := slot_congr hi _
    dsimp only [ptr]
    rw [hs]
    by_cases h : D.slot sb i indSlot = 0
    · rw [if_pos h, if_pos h]
    · have he : D'.blk (D.slot sb i indSlot) = D.blk (D.slot sb i indSlot) := hb h
      rw [if_neg h, if_neg h, he]

theorem addr_of_ino {i : Nat} (hi : D'.ino i = D.ino i) (hb : D'.blk = D.blk) (n : Nat) :
    D'.addr sb i n = D.addr sb i n := by
  unfold addr
  cases hp : place i n with
  | none => rfl
  | some r => exact ptr_congr (by rw [place_ino hp, hi]) fun _ => by rw [hb]

theorem data_of_ino {i : Nat} (hi : D'.ino i = D.ino i) (hb : D'.blk = D.blk) (o : Nat) :
    D'.data sb i o = D.data sb i o := by
  unfold data
  rw [addr_of_ino hi hb, hb]

end Disk

namespace Owned

section
variable (h : Owned sb D)
include h

theorem addr_inj {i j m : Nat} (ha : D.addr sb i n ≠ 0)
    (he : D.addr sb i n = D.addr sb j m) : i = j ∧ n = m := by
  obtain ⟨r, hr, hp⟩ := Disk.place_of_addr ha
  obtain ⟨r', hr', hp'⟩ := Disk.place_of_addr (he ▸ ha)
  have := h.inj r r' (hp ▸ ha) (by rw [hp, hp', he])
  subst this
  exact Disk.place_inj hr hr'

/-- A data block is not an indirect block. -/
theorem addr_ne_indirect {i j : Nat} (ha : D.addr sb i n ≠ 0) :
    D.addr sb i n ≠ D.slot sb j indSlot := by
  intro he
  obtain ⟨r, hr, hp⟩ := Disk.place_of_addr ha
  have := h.inj r (.indirect j) (hp ▸ ha) (hp.trans he)
  subst this
  exact Disk.place_ne_indirect hr

theorem indirect_inj {i j : Nat} (hi : D.slot sb i indSlot ≠ 0)
    (he : D.slot sb i indSlot = D.slot sb j indSlot) : i = j := by
  have := h.inj (.indirect i) (.indirect j) hi he
  injection this

theorem not_held {b : Nat} (hb : D.bit b = false) (hb0 : b ≠ 0) (r : Ptr) : D.ptr sb r ≠ b := by
  intro he
  have := h.used r (he ▸ hb0)
  rw [he, hb] at this
  cases this

theorem free_data {b : Nat} (hb : D.bit b = false) : sb.dataStart ≤ b := by
  by_contra hlt
  rw [h.meta_used b (by omega)] at hb
  cases hb

theorem free_ne_zero {b : Nat} (hb : D.bit b = false) : b ≠ 0 := by
  have := h.free_data hb
  have := sb.dataStart_pos
  omega

/-- Ownership after a change that only empties places and leaves what is held marked. -/
theorem of_le (hp : ∀ r, D'.ptr sb r ≠ 0 → D'.ptr sb r = D.ptr sb r)
    (hu : ∀ r, D'.ptr sb r ≠ 0 → D'.bit (D'.ptr sb r) = true)
    (hm : ∀ b, b < sb.dataStart → D'.bit b = true) : Owned sb D' where
  range r hr := by
    have he := hp r hr
    exact he ▸ h.range r (he ▸ hr)
  used := hu
  inj r r' hr he := by
    have h1 := hp r hr
    have h2 := hp r' (he ▸ hr)
    exact h.inj r r' (h1 ▸ hr) (by rw [← h1, he, h2])
  meta_used := hm

theorem congr (hp : ∀ r, D'.ptr sb r = D.ptr sb r) (hb : D'.bit = D.bit) : Owned sb D' :=
  h.of_le (fun r _ => hp r) (fun r hr => by rw [hb, hp r]; exact h.used r (hp r ▸ hr))
    (fun b hb' => by rw [hb]; exact h.meta_used b hb')

/-- A block that nobody holds is put into an empty place. -/
theorem setPtr {r₀ : Ptr} {b : Nat} (hbit : D'.bit = D.bit)
    (hp : ∀ r, D'.ptr sb r = if r = r₀ then b else D.ptr sb r) (hd : sb.dataStart ≤ b)
    (hs : b < sb.size) (hu : D.bit b = true) (hn : ∀ r, D.ptr sb r ≠ b) : Owned sb D' where
  range r hr := by
    rw [hp] at hr ⊢
    split at hr
    next he => rw [if_pos he]; exact ⟨hd, hs⟩
    next he => rw [if_neg he]; exact h.range r hr
  used r hr := by
    rw [hbit]
    rw [hp] at hr ⊢
    split at hr
    next he => rw [if_pos he]; exact hu
    next he => rw [if_neg he]; exact h.used r hr
  inj r r' hr he := by
    rw [hp] at hr he
    rw [hp] at he
    split at he
    next h1 =>
      split at he
      next h2 => rw [h1, h2]
      next h2 => exact absurd he.symm (hn r')
    next h1 =>
      rw [if_neg h1] at hr
      split at he
      next h2 => exact absurd he (hn r)
      next h2 => exact h.inj r r' hr he
  meta_used b' hb' := by
    rw [hbit]
    exact h.meta_used b' hb'

end

end Owned

/-! ## A block is allocated -/

/-- Marked and zeroed, and not held yet: what `balloc` returns. -/
structure Fresh (sb : Superblock) (D : Disk) (b : Nat) : Prop where
  range : sb.dataStart ≤ b ∧ b < sb.size
  used : D.bit b = true
  zero : D.blk b = fun _ => 0
  free : ∀ r, D.ptr sb r ≠ b

theorem Fresh.ne_zero {b : Nat} (h : Fresh sb D b) : b ≠ 0 := by
  have := sb.dataStart_pos
  have := h.range.1
  omega

/-- Inode `i` may have got blocks where it had none; nothing that was there has changed. -/
structure Extends (sb : Superblock) (i : Nat) (D D' : Disk) : Prop where
  owned : Owned sb D'
  other : ∀ j, j ≠ i → D'.ino j = D.ino j
  self : { D'.ino i with addrs := (D.ino i).addrs } = D.ino i
  addr : ∀ j n, D.addr sb j n ≠ 0 → D'.addr sb j n = D.addr sb j n
  data : ∀ j off, D'.data sb j off = D.data sb j off

namespace Extends

variable {i : Nat}

theorem refl (h : Owned sb D) : Extends sb i D D :=
  ⟨h, fun _ _ => rfl, rfl, fun _ _ _ => rfl, fun _ _ => rfl⟩

theorem type_eq (h : Extends sb i D D') (j : Nat) : (D'.ino j).type = (D.ino j).type := by
  by_cases hj : j = i
  · rw [hj, ← h.self]
  · rw [h.other j hj]

theorem trans {D₁ D₂ D₃ : Disk} (h : Extends sb i D₁ D₂) (h' : Extends sb i D₂ D₃) :
    Extends sb i D₁ D₃ where
  owned := h'.owned
  other j hj := (h'.other j hj).trans (h.other j hj)
  self := by
    rw [← h.self, ← h'.self]
  addr j n hn := by
    have h1 := h.addr j n hn
    rw [h'.addr j n (h1 ▸ hn), h1]
  data j off := (h'.data j off).trans (h.data j off)

/-- A fresh block is put into an empty place of `i`. -/
theorem of_setPtr (r₀ : Ptr) {b : Nat} (h : Owned sb D) (hf : Fresh sb D b)
    (h0 : D.ptr sb r₀ = 0) (hp : ∀ r, D'.ptr sb r = if r = r₀ then b else D.ptr sb r)
    (hbit : D'.bit = D.bit) (hz : D'.blk b = D.blk b)
    (hblk : ∀ j n, D.addr sb j n ≠ 0 → D'.blk (D.addr sb j n) = D.blk (D.addr sb j n))
    (ho : ∀ j, j ≠ i → D'.ino j = D.ino j)
    (hi : { D'.ino i with addrs := (D.ino i).addrs } = D.ino i) : Extends sb i D D' := by
  have hkeep : ∀ j n, D.addr sb j n ≠ 0 → D'.addr sb j n = D.addr sb j n := by
    intro j n hn
    obtain ⟨r, hr, he⟩ := Disk.place_of_addr hn
    rw [Disk.addr_of_place hr, hp, if_neg, he]
    rintro rfl
    rw [← he, h0] at hn
    exact hn rfl
  have hnew : ∀ j n, D.addr sb j n = 0 → D'.addr sb j n = 0 ∨ D'.addr sb j n = b := by
    intro j n hn
    cases hr : Disk.place j n with
    | none =>
      left
      simp [Disk.addr, hr]
    | some r =>
      rw [Disk.addr_of_place hr] at hn ⊢
      rw [hp]
      split
      · exact .inr rfl
      · exact .inl hn
  refine ⟨h.setPtr hbit hp hf.range.1 hf.range.2 hf.used hf.free, ho, hi, hkeep, ?_⟩
  intro j off
  unfold Disk.data
  by_cases hn : D.addr sb j (off / BSIZE) = 0
  · rw [if_pos hn]
    rcases hnew _ _ hn with he | he
    · rw [if_pos he]
    · rw [he, hz, hf.zero]
      split <;> rfl
  · rw [if_neg hn, hkeep _ _ hn, if_neg hn, hblk _ _ hn]

end Extends

/-- The stores of `balloc`. -/
def Disk.take (D : Disk) (b : Nat) : Disk := (D.setBit b true).setBlk b fun _ => 0

section
variable {i b : Nat}

theorem ptr_take (h : Owned sb D) (hb : D.bit b = false) (r : Ptr) :
    (D.take b).ptr sb r = D.ptr sb r := by
  refine Disk.ptr_congr rfl fun hs => Disk.setBlk_of_ne _ _ ?_
  exact h.not_held hb (h.free_ne_zero hb) (.indirect r.ino)

theorem fresh_take (h : Owned sb D) (hb : D.bit b = false) (hs : b < sb.size) :
    Fresh sb (D.take b) b where
  range := ⟨h.free_data hb, hs⟩
  used := by rw [Disk.take, Disk.setBlk, Disk.setBit_apply, if_pos rfl]
  zero := Disk.setBlk_self ..
  free r := by
    rw [ptr_take h hb]
    exact h.not_held hb (h.free_ne_zero hb) r

theorem take_bit {a : Nat} (ha : D.bit a = true) : (D.take b).bit a = true := by
  rw [Disk.take, Disk.setBlk, Disk.setBit_apply]
  split
  · rfl
  · exact ha

theorem extends_take (h : Owned sb D) (hb : D.bit b = false) : Extends sb i D (D.take b) where
  owned := by
    refine h.of_le (fun r _ => ptr_take h hb r) (fun r hr => ?_) fun a ha => ?_
    · rw [ptr_take h hb] at hr ⊢
      exact take_bit (h.used r hr)
    · exact take_bit (h.meta_used a ha)
  other _ _ := rfl
  self := rfl
  addr j n _ := Disk.addr_congr (ptr_take h hb) j n
  data j off := by
    unfold Disk.data
    rw [Disk.addr_congr (ptr_take h hb)]
    by_cases hn : D.addr sb j (off / BSIZE) = 0
    · rw [if_pos hn, if_pos hn]
    · rw [if_neg hn, if_neg hn]
      obtain ⟨r, -, he⟩ := Disk.place_of_addr hn
      have hne : D.addr sb j (off / BSIZE) ≠ b := he ▸ h.not_held hb (h.free_ne_zero hb) r
      rw [Disk.take, Disk.setBlk_of_ne _ _ hne]
      rfl

/-! ## The block is put into its place -/

theorem live_setIno {d : Dinode} (hd : d.type = (D.ino i).type) (j : Nat) :
    (D.setIno i d).Live sb j ↔ D.Live sb j := by
  refine Disk.live_congr ?_
  by_cases hj : j = i
  · rw [hj, Disk.setIno_self, hd]
  · rw [Disk.setIno_of_ne _ _ hj]

theorem slot_setAddr {k : Fin (NDIRECT + 1)} (hl : D.Live sb i) (j : Nat)
    (k' : Fin (NDIRECT + 1)) :
    (D.setIno i ((D.ino i).setAddr k b)).slot sb j k' =
      if j = i ∧ k' = k then b else D.slot sb j k' := by
  by_cases hj : j = i
  · subst hj
    have hl' : (D.setIno j ((D.ino j).setAddr k b)).Live sb j :=
      (live_setIno (d := (D.ino j).setAddr k b) rfl j).mpr hl
    rw [Disk.slot_of_live hl', Disk.setIno_self, Disk.slot_of_live hl]
    simp only [Dinode.setAddr, update_apply, true_and]
  · rw [Disk.slot_congr (Disk.setIno_of_ne _ _ hj), if_neg fun h => hj h.1]

theorem indSlot_ne (k : Fin NDIRECT) : indSlot ≠ k.castSucc := by
  simp [Fin.ext_iff]
  omega

theorem ptr_setDirect {k : Fin NDIRECT} (hl : D.Live sb i) (r : Ptr) :
    (D.setIno i ((D.ino i).setAddr k.castSucc b)).ptr sb r =
      if r = .direct i k then b else D.ptr sb r := by
  have hs : ∀ j, (D.setIno i ((D.ino i).setAddr k.castSucc b)).slot sb j indSlot =
      D.slot sb j indSlot := by
    intro j
    rw [slot_setAddr hl, if_neg fun h => indSlot_ne k h.2]
  cases r with
  | direct j k' =>
    dsimp only [Disk.ptr]
    rw [slot_setAddr hl]
    simp only [Ptr.direct.injEq, Fin.castSucc_inj]
  | indirect j =>
    rw [if_neg (by simp)]
    exact hs j
  | entry j m =>
    rw [if_neg (by simp)]
    dsimp only [Disk.ptr]
    rw [hs]
    rfl

theorem ptr_setIndirect (hl : D.Live sb i) (h0 : D.slot sb i indSlot = 0)
    (hz : D.blk b = fun _ => 0) (r : Ptr) :
    (D.setIno i ((D.ino i).setAddr indSlot b)).ptr sb r =
      if r = .indirect i then b else D.ptr sb r := by
  have hs := fun j k => slot_setAddr (b := b) (k := indSlot) hl j k
  cases r with
  | direct j k' =>
    dsimp only [Disk.ptr]
    rw [hs, if_neg fun h => indSlot_ne k' h.2.symm, if_neg (by simp)]
  | indirect j =>
    dsimp only [Disk.ptr]
    rw [hs]
    simp
  | entry j m =>
    rw [if_neg (by simp : ¬ Ptr.entry j m = .indirect i)]
    dsimp only [Disk.ptr]
    by_cases hj : j = i
    · subst hj
      -- the new indirect block is all zeros, and there was none before
      have hb : (D.setIno j ((D.ino j).setAddr indSlot b)).slot sb j indSlot = b := by
        rw [hs, if_pos ⟨rfl, rfl⟩]
      rw [hb, h0, if_pos rfl]
      split
      · rfl
      · change (D.blk b).word m = 0
        rw [hz, Bytes.word_zero]
    · have hb : (D.setIno i ((D.ino i).setAddr indSlot b)).slot sb j indSlot =
          D.slot sb j indSlot := by
        rw [hs, if_neg fun h => hj h.1]
      rw [hb]
      rfl

theorem ptr_setEntry (h : Owned sb D) {j : Fin NINDIRECT} (hs : D.slot sb i indSlot ≠ 0)
    (hb : b < 2 ^ 32) (r : Ptr) :
    (D.setBlk (D.slot sb i indSlot) ((D.blk (D.slot sb i indSlot)).putWord j b)).ptr sb r =
      if r = .entry i j then b else D.ptr sb r := by
  by_cases hi : r.ino = i
  · cases r with
    | direct i' k => rw [if_neg (by simp)]; rfl
    | indirect i' => rw [if_neg (by simp)]; rfl
    | entry i' m =>
      obtain rfl : i' = i := hi
      change (if D.slot sb i' indSlot = 0 then 0 else _) = _
      rw [if_neg hs]
      change (Disk.blk (Disk.setBlk ..) (D.slot sb i' indSlot)).word m = _
      rw [Disk.setBlk_self]
      by_cases hm : m = j
      · rw [hm, if_pos rfl, Bytes.word_putWord_self _ _ hb]
      · rw [if_neg (by simpa using hm), Bytes.word_putWord_of_ne _ _ (by omega)]
        exact (if_neg hs).symm
  · rw [if_neg (by rintro rfl; exact hi rfl)]
    refine Disk.ptr_congr rfl fun hr => Disk.setBlk_of_ne _ _ fun he => hi ?_
    exact h.indirect_inj hr he

theorem extends_setSlot {k : Fin (NDIRECT + 1)} (h : Owned sb D) (hf : Fresh sb D b)
    (hl : D.Live sb i) (h0 : D.slot sb i k = 0) :
    Extends sb i D (D.setIno i ((D.ino i).setAddr k b)) := by
  have ho : ∀ j, j ≠ i → (D.setIno i ((D.ino i).setAddr k b)).ino j = D.ino j :=
    fun j hj => Disk.setIno_of_ne _ _ hj
  have hi : { (D.setIno i ((D.ino i).setAddr k b)).ino i with addrs := (D.ino i).addrs }
      = D.ino i := by
    rw [Disk.setIno_self]
    rfl
  cases k using Fin.lastCases with
  | last =>
    exact .of_setPtr (.indirect i) h hf h0 (ptr_setIndirect hl h0 hf.zero) rfl rfl
      (fun _ _ _ => rfl) ho hi
  | cast k =>
    exact .of_setPtr (.direct i k) h hf h0 (ptr_setDirect hl) rfl rfl
      (fun _ _ _ => rfl) ho hi

theorem extends_setEntry {j : Fin NINDIRECT} (h : Owned sb D) (hf : Fresh sb D b)
    (hs : D.slot sb i indSlot ≠ 0) (h0 : D.ptr sb (.entry i j) = 0) :
    Extends sb i D
      (D.setBlk (D.slot sb i indSlot) ((D.blk (D.slot sb i indSlot)).putWord j b)) := by
  have hb : b < 2 ^ 32 := Nat.lt_trans hf.range.2 sb.fits
  refine .of_setPtr (.entry i j) h hf h0 (ptr_setEntry h hs hb) rfl ?_ ?_ (fun _ _ => rfl) rfl
  · exact Disk.setBlk_of_ne _ _ fun he => hf.free (.indirect i) he.symm
  · intro j' n hn
    exact Disk.setBlk_of_ne _ _ (h.addr_ne_indirect hn)

end

/-! ## Bytes are written -/

section
variable {i : Nat}

theorem ptr_setData (h : Owned sb D) (hn : D.addr sb i n ≠ 0) (v : Bytes) (r : Ptr) :
    (D.setBlk (D.addr sb i n) v).ptr sb r = D.ptr sb r :=
  Disk.ptr_congr rfl fun _ => Disk.setBlk_of_ne _ _ fun he => h.addr_ne_indirect hn he.symm

theorem owned_setData (h : Owned sb D) (hn : D.addr sb i n ≠ 0) (v : Bytes) :
    Owned sb (D.setBlk (D.addr sb i n) v) :=
  h.congr (ptr_setData h hn v) rfl

/-- One `memmove` into block `off / BSIZE` of `i`. -/
theorem data_memmove (h : Owned sb D) {off : Nat} (hn : D.addr sb i (off / BSIZE) ≠ 0)
    {l : List UInt8} (hl : l.length ≤ BSIZE - off % BSIZE) (j o : Nat) :
    (D.setBlk (D.addr sb i (off / BSIZE))
        ((D.blk (D.addr sb i (off / BSIZE))).memmove (off % BSIZE) l)).data sb j o =
      if j = i ∧ off ≤ o ∧ o < off + l.length then l.getD (o - off) 0 else D.data sb j o := by
  have ha := Disk.addr_congr (ptr_setData h hn
    ((D.blk (D.addr sb i (off / BSIZE))).memmove (off % BSIZE) l))
  have hm := Nat.mod_lt off (show 0 < BSIZE by decide)
  unfold Disk.data
  rw [ha]
  dsimp only [BSIZE] at *
  by_cases hb : j = i ∧ o / 512 = off / 512
  · obtain ⟨rfl, hb⟩ := hb
    rw [hb, if_neg hn, if_neg hn, Disk.setBlk_self]
    unfold Bytes.memmove
    by_cases hr : off ≤ o ∧ o < off + l.length
    · have hin : off % 512 ≤ o % 512 ∧ o % 512 < off % 512 + l.length := by omega
      rw [if_pos hin, if_pos (show j = j ∧ _ from ⟨rfl, hr⟩)]
      congr 1
      omega
    · have hout : ¬ (off % 512 ≤ o % 512 ∧ o % 512 < off % 512 + l.length) := by omega
      rw [if_neg hout, if_neg (show ¬ (j = j ∧ _) from fun hc => hr hc.2)]
  · have hout : ¬ (j = i ∧ off ≤ o ∧ o < off + l.length) := fun hc => hb ⟨hc.1, by omega⟩
    rw [if_neg hout]
    by_cases h0 : D.addr sb j (o / 512) = 0
    · rw [if_pos h0, if_pos h0]
    · rw [if_neg h0, if_neg h0, Disk.setBlk_of_ne]
      intro he
      exact hb (h.addr_inj h0 he)

/-- `src` has been written to `i` from `off` on; inode `i` may have got blocks for it. -/
structure Writes (sb : Superblock) (i off : Nat) (src : List UInt8) (D D' : Disk) : Prop where
  owned : Owned sb D'
  other : ∀ j, j ≠ i → D'.ino j = D.ino j
  self : { D'.ino i with addrs := (D.ino i).addrs } = D.ino i
  addr : ∀ j n, D.addr sb j n ≠ 0 → D'.addr sb j n = D.addr sb j n
  mapped : ∀ n, src ≠ [] → off < (n + 1) * BSIZE → n * BSIZE < off + src.length →
    D'.addr sb i n ≠ 0
  data : ∀ j o, D'.data sb j o =
    if j = i ∧ off ≤ o ∧ o < off + src.length then src.getD (o - off) 0 else D.data sb j o

theorem Writes.nil (h : Owned sb D) (off : Nat) : Writes sb i off [] D D where
  owned := h
  other _ _ := rfl
  self := rfl
  addr _ _ _ := rfl
  mapped _ h := absurd rfl h
  data j o := by
    rw [if_neg]
    simp only [List.length_nil, Nat.add_zero]
    omega

/-- One pass of the loop and the passes after it. -/
theorem Writes.cons {D₁ D₂ D₃ : Disk} {off : Nat} {l l' : List UInt8} (he : Extends sb i D₁ D₂)
    (hn : D₂.addr sb i (off / BSIZE) ≠ 0) (hl : l.length ≤ BSIZE - off % BSIZE)
    (hw : Writes sb i (off + l.length) l' (D₂.setBlk (D₂.addr sb i (off / BSIZE))
      ((D₂.blk (D₂.addr sb i (off / BSIZE))).memmove (off % BSIZE) l)) D₃) :
    Writes sb i off (l ++ l') D₁ D₃ := by
  have hm := Nat.mod_lt off (show 0 < BSIZE by decide)
  have ha := Disk.addr_congr (ptr_setData he.owned hn
    ((D₂.blk (D₂.addr sb i (off / BSIZE))).memmove (off % BSIZE) l))
  have hkeep : ∀ j n, D₂.addr sb j n ≠ 0 → D₃.addr sb j n = D₂.addr sb j n := by
    intro j n hjn
    rw [hw.addr j n (by rwa [ha]), ha]
  refine ⟨hw.owned, fun j hj => (hw.other j hj).trans (he.other j hj), ?_, ?_, ?_, ?_⟩
  · rw [← he.self]
    exact congrArg (fun d : Dinode => { d with addrs := (D₁.ino i).addrs }) hw.self
  · intro j n hjn
    have h1 := he.addr j n hjn
    rw [hkeep j n (h1 ▸ hjn), h1]
  · intro n _ h1 h2
    rw [List.length_append] at h2
    dsimp only [BSIZE] at *
    by_cases hb : n = off / 512
    · rw [hb, hkeep _ _ hn]
      exact hn
    · refine hw.mapped n ?_ (by dsimp only [BSIZE]; omega) (by dsimp only [BSIZE]; omega)
      rintro rfl
      simp only [List.length_nil] at h2
      omega
  · intro j o
    rw [hw.data, data_memmove he.owned hn hl, he.data, List.length_append]
    by_cases hj : j = i
    · by_cases h1 : off ≤ o ∧ o < off + l.length
      · rw [if_neg (by omega), if_pos ⟨hj, h1⟩, if_pos (by omega),
          List.getD_append _ _ _ _ (by omega)]
      · by_cases h2 : off + l.length ≤ o ∧ o < off + l.length + l'.length
        · rw [if_pos ⟨hj, h2⟩, if_pos (by omega), List.getD_append_right _ _ _ _ (by omega)]
          congr 1
          omega
        · rw [if_neg (by omega), if_neg (by omega), if_neg (by omega)]
    · rw [if_neg fun hc => hj hc.1, if_neg fun hc => hj hc.1, if_neg fun hc => hj hc.1]

end

/-! ## An inode is rewritten -/

section
variable {i : Nat} {d : Dinode}

/-- Type and addresses stay. -/
theorem ptr_setMeta (ht : d.type = (D.ino i).type) (ha : d.addrs = (D.ino i).addrs) (r : Ptr) :
    (D.setIno i d).ptr sb r = D.ptr sb r := by
  have hs : ∀ j k, (D.setIno i d).slot sb j k = D.slot sb j k := by
    intro j k
    by_cases hj : j = i
    · subst hj
      have hl : (D.setIno j d).Live sb j ↔ D.Live sb j := live_setIno ht j
      by_cases h : D.Live sb j
      · rw [Disk.slot_of_live h, Disk.slot_of_live (hl.mpr h), Disk.setIno_self, ha]
      · rw [Disk.slot_of_not_live h, Disk.slot_of_not_live fun hc => h (hl.mp hc)]
    · exact Disk.slot_congr (Disk.setIno_of_ne _ _ hj) k
  cases r with
  | direct j k => exact hs j _
  | indirect j => exact hs j _
  | entry j m =>
    dsimp only [Disk.ptr]
    rw [hs]
    rfl

theorem data_of_ptr (hp : ∀ r, D'.ptr sb r = D.ptr sb r) (hb : D'.blk = D.blk) (j o : Nat) :
    D'.data sb j o = D.data sb j o := by
  unfold Disk.data
  rw [Disk.addr_congr hp, hb]

/-- An inode that had no blocks gets none. -/
theorem ptr_fresh (hl : ¬ D.Live sb i) {t : BitVec 16} (r : Ptr) :
    (D.setIno i (.fresh t)).ptr sb r = D.ptr sb r := by
  by_cases hr : r.ino = i
  · subst hr
    have hs : ∀ k, (D.setIno r.ino (.fresh t)).slot sb r.ino k = 0 := by
      intro k
      unfold Disk.slot
      rw [Disk.setIno_self]
      exact ite_self _
    have h0 : D.ptr sb r = 0 := Disk.ptr_of_not_live hl
    rw [h0]
    cases r with
    | direct j k => exact hs _
    | indirect j => exact hs _
    | entry j m => exact if_pos (hs _)
  · exact Disk.ptr_congr (Disk.setIno_of_ne _ _ hr) fun _ => rfl

/-- The blocks of `i` are given back and `i` is free. -/
structure Freed (sb : Superblock) (i : Nat) (D D' : Disk) : Prop where
  blk : D'.blk = D.blk
  other : ∀ j, j ≠ i → D'.ino j = D.ino j
  self : (D'.ino i).type = 0
  bit : ∀ b, D'.bit b = true ↔ D.bit b = true ∧ ∀ r, r.ino = i → D.ptr sb r = b → b = 0

theorem Freed.ptr (h : Freed sb i D D') (r : Ptr) :
    D'.ptr sb r = if r.ino = i then 0 else D.ptr sb r := by
  by_cases hr : r.ino = i
  · rw [if_pos hr]
    exact Disk.ptr_of_not_live fun hl => hl.2 (hr ▸ h.self)
  · rw [if_neg hr]
    exact Disk.ptr_congr (h.other _ hr) fun _ => by rw [h.blk]

theorem Freed.owned (h : Freed sb i D D') (ho : Owned sb D) : Owned sb D' := by
  refine ho.of_le (fun r hr => ?_) (fun r hr => ?_) fun b hb => ?_
  · rw [h.ptr] at hr ⊢
    split at hr
    · exact absurd rfl hr
    next hi => rw [if_neg hi]
  · rw [h.ptr] at hr ⊢
    split at hr
    · exact absurd rfl hr
    next hi =>
      rw [if_neg hi]
      refine (h.bit _).mpr ⟨ho.used r hr, fun r' hr' he => ?_⟩
      exact absurd (ho.inj r r' hr he.symm ▸ hr') hi
  · refine (h.bit b).mpr ⟨ho.meta_used b hb, fun r _ he => ?_⟩
    by_contra h0
    have := (ho.range r (he ▸ h0)).1
    omega

end

end Xv6.Fs
