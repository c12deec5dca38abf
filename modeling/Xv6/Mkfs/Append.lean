import Xv6.Fs.Logged
import Xv6.Mkfs.Model

/-!
# `iappend` is `writei`

`mkfs` hands out blocks from a counter, the kernel takes the first free bit of the map; on an image
whose blocks below `freeblock` are the used ones that is the same.  `appendLoop_sim` runs the loops
of `iappend` and of the kernel's `writei` next to each other: they end on the same disk, or `mkfs`
exits where the kernel runs out of blocks.  What is known of `writei` then holds for `iappend`.
-/

namespace Xv6.Mkfs

open Function
open Fs

variable {s s' : Image} {D D' : Disk} {i : Nat}

/-! ## Small steps -/

@[simp] theorem rsect_eq (sec : Nat) (s : Image) :
    rsect sec s = if sec < s.nsect then .ok (s.sect sec, s) else .error .one := by
  show (if sec < s.nsect then _ else _ : M Bytes) s = _
  split <;> rfl

/-- The image after `freeblock++`. -/
def Image.next (s : Image) : Image :=
  { s with freeblock := s.freeblock + 1, trace := .block s.freeblock :: s.trace }

/-- The image after `wsect`. -/
def Image.write (s : Image) (sec : Nat) (buf : Bytes) : Image :=
  { s with sect := update s.sect sec buf, nsect := max s.nsect (sec + 1) }

theorem Image.write_self {b : Nat} {v : Bytes} : (s.write b v).sect b = v := by
  show update s.sect b v b = v
  rw [update_self]

theorem Image.write_of_ne {a b : Nat} {v : Bytes} (h : a ≠ b) :
    (s.write b v).sect a = s.sect a := by
  show update s.sect b v a = s.sect a
  rw [update_of_ne h]

theorem nextBlock_eq (s : Image) : nextBlock s = .ok (s.freeblock, s.next) := rfl

theorem wsect_eq (sec : Nat) (buf : Bytes) (s : Image) :
    wsect sec buf s = .ok ((), s.write sec buf) := rfl

/-! ## The blocks of the image -/

def Event.Within : Event → Prop
  | .inode inum => inum < sb.ninodes
  | .block b => nmeta ≤ b ∧ b < FSSIZE
  | .winode bn => layout.inodestart ≤ bn ∧ bn < layout.bmapstart

/-- The image has the blocks of `D`, of which those from `freeblock` on are free and still zero. -/
structure Blocks (s : Image) (D : Disk) : Prop where
  nsect : s.nsect = FSSIZE
  low : nmeta ≤ s.freeblock
  high : s.freeblock ≤ FSSIZE
  bit : ∀ b, D.bit b = decide (b < s.freeblock)
  blk : ∀ b, nmeta ≤ b → s.sect b = D.blk b
  zero : ∀ b, s.freeblock ≤ b → s.sect b = fun _ => 0
  trace : ∀ e ∈ s.trace, e.Within

/-- The metadata and the count of inodes stay as they are. -/
def Frame (s s' : Image) : Prop :=
  (∀ b, b < nmeta → s'.sect b = s.sect b) ∧ s'.freeinode = s.freeinode

theorem Frame.trans {s₁ s₂ s₃ : Image} (h : Frame s₁ s₂) (h' : Frame s₂ s₃) : Frame s₁ s₃ :=
  ⟨fun b hb => (h'.1 b hb).trans (h.1 b hb), h'.2.trans h.2⟩

namespace Blocks

theorem next (h : Blocks s D) (hb : s.freeblock < FSSIZE) :
    Blocks s.next (D.take s.freeblock) where
  nsect := h.nsect
  low := Nat.le_succ_of_le h.low
  high := hb
  bit b := by
    show Disk.bit (D.setBit s.freeblock true) b = decide (b < s.freeblock + 1)
    rw [Disk.setBit_apply, h.bit]
    by_cases he : b = s.freeblock
    · simp [he]
    · rw [if_neg he]
      exact decide_eq_decide.2 (by omega)
  blk b hb := by
    show s.sect b = update D.blk s.freeblock (fun _ => 0) b
    by_cases he : b = s.freeblock
    · rw [he, update_self, h.zero _ le_rfl]
    · rw [update_of_ne he, h.blk b hb]
  zero b hb := h.zero b (Nat.le_of_succ_le hb)
  trace e he := by
    rcases List.mem_cons.1 he with rfl | he
    · exact ⟨h.low, hb⟩
    · exact h.trace e he

theorem setIno (h : Blocks s D) (d : Dinode) : Blocks s (D.setIno i d) :=
  ⟨h.nsect, h.low, h.high, h.bit, h.blk, h.zero, h.trace⟩

/-- A store into a block that has been handed out. -/
theorem write (h : Blocks s D) {b : Nat} (hb : nmeta ≤ b) (hlt : b < s.freeblock) (v : Bytes) :
    Blocks (s.write b v) (D.setBlk b v) where
  nsect := by
    show max s.nsect (b + 1) = FSSIZE
    have := h.nsect
    have := h.high
    omega
  low := h.low
  high := h.high
  bit := h.bit
  blk a ha := by
    show update s.sect b v a = update D.blk b v a
    rw [update_apply, update_apply, h.blk a ha]
  zero a ha := by
    show update s.sect b v a = _
    have ha : s.freeblock ≤ a := ha
    rw [update_of_ne (by omega), h.zero a ha]
  trace := h.trace

theorem frame_write {b : Nat} (hb : nmeta ≤ b) (v : Bytes) : Frame s (s.write b v) :=
  ⟨fun a ha => update_of_ne (by omega) .., rfl⟩

end Blocks

/-! ## The kernel on the same disk -/

section
variable {k : Fs.State} {t : ISlot}

theorem seq_modD {α : Type} {x : Fs.State} {f : Disk → Disk} {g : Unit → Fs.M α} :
    (modD f >>= g) x = g () { x with disk := f x.disk } := rfl

theorem seq_logWrite {α : Type} {x : Fs.State} {g : Unit → Fs.M α} (htx : x.tx = true) :
    (Fs.logWrite >>= g) x = g () x := by
  refine seq_ok ?_
  show (if x.tx then pure () else throw .outsideTrans : Fs.M Unit) x = _
  rw [htx]
  rfl

/-- The first free bit is that of `freeblock`. -/
theorem balloc_put (h : Blocks s D) (htx : k.tx = true) : Fs.balloc sb (k.put t D) =
    if s.freeblock < FSSIZE then .ok (s.freeblock, k.put t (D.take s.freeblock))
    else .error .outOfBlocks := by
  have hfind : (List.range sb.size).find? (fun b => !(k.put t D).disk.bit b) =
      if s.freeblock < FSSIZE then some s.freeblock else none := by
    have hbit : ∀ b, (!(k.put t D).disk.bit b) = !decide (b < s.freeblock) := fun b => by
      rw [← h.bit b]
      rfl
    simp only [hbit]
    split
    next hlt =>
      rw [List.find?_range_eq_some]
      refine ⟨by simp, List.mem_range.2 hlt, fun b hb => by simpa using hb⟩
    next hge =>
      rw [List.find?_range_eq_none]
      intro b hb
      have hb : b < FSSIZE := hb
      simp only [Bool.not_not, decide_eq_true_eq]
      omega
  unfold Fs.balloc
  rw [seq_get, hfind]
  split
  next hlt =>
    dsimp only
    rw [seq_modD, seq_logWrite, seq_modD, seq_logWrite]
    · rfl
    · exact htx
    · exact htx
  next hge => rfl

theorem mapSlot_put (h : Blocks s D) (htx : k.tx = true) (hi : (k.ic t).inum = i)
    (j : Fin (NDIRECT + 1)) : Fs.mapSlot sb t j (k.put t D) =
    if (D.ino i).addrs j = 0 then
      if s.freeblock < FSSIZE then .ok (s.freeblock, k.put t
        ((D.take s.freeblock).setIno i ((D.ino i).setAddr j s.freeblock)))
      else .error .outOfBlocks
    else .ok ((D.ino i).addrs j, k.put t D) := by
  unfold Fs.mapSlot
  rw [seq_get, put_copy, hi]
  split
  next h0 =>
    have hb := balloc_put (k := k) (t := t) h htx
    split at hb
    next hlt =>
      rw [seq_ok hb, if_pos hlt, seq_ok (modC_put ..), hi]
      rfl
    next hge => rw [seq_error hb, if_neg hge]
  next h0 => rfl

theorem mapEntry_put (h : Blocks s D) (htx : k.tx = true) (a j : Nat) :
    Fs.mapEntry sb a j (k.put t D) =
    if (D.blk a).word j = 0 then
      if s.freeblock < FSSIZE then .ok (s.freeblock, k.put t ((D.take s.freeblock).setBlk a
        (((D.take s.freeblock).blk a).putWord j s.freeblock)))
      else .error .outOfBlocks
    else .ok ((D.blk a).word j, k.put t D) := by
  unfold Fs.mapEntry
  rw [seq_get]
  show (if (D.blk a).word j = 0 then _ else _ : Fs.M Nat) (k.put t D) = _
  split
  next h0 =>
    have hb := balloc_put (k := k) (t := t) h htx
    split at hb
    next hlt =>
      rw [seq_ok hb, if_pos hlt, seq_modD, seq_logWrite]
      · rfl
      · exact htx
    next hge => rw [seq_error hb, if_neg hge]
  next h0 => rfl

/-! ## Side by side -/

theorem slot_eq (din : Dinode) (j : Fin (NDIRECT + 1)) (s : Image) : slot din j s =
    if din.addrs j = 0 then .ok ((din.setAddr j s.freeblock, s.freeblock), s.next)
    else .ok ((din, din.addrs j), s) := by
  unfold slot
  split <;> rfl

/-- What one step of `mkfs` and the same step of the kernel come to.  Where the kernel runs out of
blocks, `mkfs` gives out one behind the end of the image, or has exited already. -/
def Agree (k : Fs.State) (t : ISlot) (s : Image) (D : Disk) (r : Except Panic (Nat × Fs.State))
    (r' : Except Exit ((Dinode × Nat) × Image)) : Prop :=
  (∃ a D' s', r = .ok (a, k.put t D') ∧ r' = .ok ((D'.ino (k.ic t).inum, a), s') ∧
    (∀ j, j ≠ (k.ic t).inum → D'.ino j = D.ino j) ∧ Blocks s' D' ∧ Frame s s') ∨
  (∃ e, r = .error e) ∧ ∀ x s', r' = .ok (x, s') → s'.nsect ≤ x.2

theorem put_inj (h : k.put t D = k.put t D') (ho : ∀ j, j ≠ (k.ic t).inum → D.ino j = D'.ino j) :
    D = D' := by
  have hcopy : D.ino (k.ic t).inum = D'.ino (k.ic t).inum := by
    rw [← put_copy k t D, h, put_copy]
  have hbit : D.bit = D'.bit := congrArg (fun x : Fs.State => x.disk.bit) h
  have hblk : D.blk = D'.blk := congrArg (fun x : Fs.State => x.disk.blk) h
  have hino : D.ino = D'.ino := by
    funext j
    by_cases hj : j = (k.ic t).inum
    · rw [hj, hcopy]
    · exact ho j hj
  cases D
  cases D'
  simp_all

theorem slot_sim (h : Blocks s D) (htx : k.tx = true) (hi : (k.ic t).inum = i)
    (j : Fin (NDIRECT + 1)) :
    Agree k t s D (Fs.mapSlot sb t j (k.put t D)) (slot (D.ino i) j s) := by
  subst hi
  rw [mapSlot_put h htx rfl, slot_eq]
  split
  next h0 =>
    split
    next hlt =>
      refine .inl ⟨_, _, s.next, rfl, ?_, fun j hj => Disk.setIno_of_ne _ _ hj,
        (h.next hlt).setIno _, fun _ _ => rfl, rfl⟩
      rw [Disk.setIno_self]
    next hge =>
      refine .inr ⟨⟨_, rfl⟩, ?_⟩
      rintro x s' hx
      cases hx
      show s.nsect ≤ s.freeblock
      have := h.nsect
      omega
  next h0 => exact .inl ⟨_, D, s, rfl, rfl, fun _ _ => rfl, h, fun _ _ => rfl, rfl⟩

theorem entry_sim (h : Blocks s D) (htx : k.tx = true) {a : Nat} (ha : nmeta ≤ a)
    (hlt : a < s.freeblock) (j : Nat) :
    (∃ b D' s', Fs.mapEntry sb a j (k.put t D) = .ok (b, k.put t D') ∧ entry a j s = .ok (b, s') ∧
      D'.ino = D.ino ∧ Blocks s' D' ∧ Frame s s') ∨
    (∃ e, Fs.mapEntry sb a j (k.put t D) = .error e) ∧
      ∀ b s', entry a j s = .ok (b, s') → s'.nsect ≤ b := by
  have hread : rsect a s = .ok (D.blk a, s) := by
    have := h.nsect
    have := h.high
    rw [rsect_eq, if_pos (by omega), h.blk a ha]
  rw [mapEntry_put h htx, entry, seq_ok hread]
  split
  next h0 =>
    rw [seq_ok (nextBlock_eq s), seq_ok (wsect_eq ..)]
    split
    next hb =>
      have hne : a ≠ s.freeblock := by omega
      have hblk : (D.take s.freeblock).blk a = D.blk a := Disk.setBlk_of_ne _ _ hne
      rw [hblk]
      refine .inl ⟨_, _, _, rfl, rfl, rfl, (h.next hb).write ha ?_ _,
        Blocks.frame_write (s := s.next) ha _⟩
      exact Nat.lt_succ_of_lt hlt
    next hb =>
      refine .inr ⟨⟨_, rfl⟩, ?_⟩
      rintro x s' hx
      cases hx
      show max s.nsect (a + 1) ≤ s.freeblock
      have := h.nsect
      omega
  next h0 => exact .inl ⟨_, D, s, rfl, rfl, rfl, h, fun _ _ => rfl, rfl⟩

theorem block_sim (h : Blocks s D) (htx : k.tx = true) (hi : (k.ic t).inum = i)
    (ho : Owned sb D) (hl : D.Live sb i) {fbn : Nat} (hf : fbn < MAXFILE) :
    Agree k t s D (Fs.bmap sb t fbn (k.put t D)) (block (D.ino i) fbn s) := by
  unfold Fs.bmap block
  split
  next hd => exact slot_sim h htx hi _
  next hd =>
    have hj : fbn - NDIRECT < NINDIRECT := by
      dsimp only [MAXFILE, NDIRECT, NINDIRECT] at *
      omega
    rw [if_pos hj]
    have hspec := mapSlot_spec (t := t) (s := k) (n := 0) ho (hi ▸ hl) indSlot
      (False.elim : False → _)
    rcases slot_sim h htx hi indSlot with ⟨a, D₁, s₁, hr, hr', hj₁, h₁, hf₁⟩ | ⟨⟨e, hr⟩, hnone⟩
    · -- the indirect block is one that has been given out
      obtain ⟨E, heq, he, -, ha, ha0, -⟩ := hspec.of_ok hr
      obtain rfl := put_inj heq fun j hne => (hj₁ j hne).trans (he.other j hne).symm
      change a = D₁.ptr sb (.indirect (k.ic t).inum) at ha
      rw [ha] at ha0
      obtain ⟨hlow, -⟩ := he.owned.range _ ha0
      have hused := he.owned.used _ ha0
      rw [h₁.bit, decide_eq_true_eq] at hused
      rw [← ha] at hlow hused
      rw [seq_ok hr, seq_ok hr']
      dsimp only
      rcases entry_sim (t := t) h₁ htx hlow hused (fbn - NDIRECT) with
        ⟨b, D₂, s₂, hr₂, hr₂', hino, h₂, hf₂⟩ | ⟨⟨e, hr₂⟩, hnone⟩
      · rw [hr₂, seq_ok hr₂']
        refine .inl ⟨b, D₂, s₂, rfl, ?_, fun j hne => ?_, h₂, hf₁.trans hf₂⟩
        · rw [hino]
          rfl
        · rw [hino, hj₁ j hne]
      · rw [hr₂]
        refine .inr ⟨⟨e, rfl⟩, fun x s' hx => ?_⟩
        cases hr₂' : entry a (fbn - NDIRECT) s₁ with
        | error e =>
          rw [seq_error hr₂'] at hx
          cases hx
        | ok y =>
          rw [seq_ok hr₂'] at hx
          cases hx
          exact hnone _ _ hr₂'
    · rw [seq_error hr]
      refine .inr ⟨⟨e, rfl⟩, fun x s' hx => ?_⟩
      -- the indirect block would lie behind the end, and reading it fails
      cases hr' : slot (D.ino i) indSlot s with
      | error e =>
        rw [seq_error hr'] at hx
        cases hx
      | ok y =>
        obtain ⟨⟨din, a⟩, s₁⟩ := y
        have hread : rsect a s₁ = .error .one := by
          rw [rsect_eq, if_neg (Nat.not_lt.2 (hnone _ _ hr'))]
        have hentry : entry a (fbn - NDIRECT) s₁ = .error .one := seq_error hread
        rw [seq_ok hr'] at hx
        dsimp only at hx
        rw [seq_error hentry] at hx
        cases hx

/-- A block that the kernel has found is one that has been given out. -/
theorem Blocks.held (h : Blocks s D) (ho : Owned sb D) {i n : Nat} (hn : D.addr sb i n ≠ 0) :
    nmeta ≤ D.addr sb i n ∧ D.addr sb i n < s.freeblock := by
  obtain ⟨r, -, he⟩ := Disk.place_of_addr hn
  rw [← he] at hn ⊢
  have hused := ho.used r hn
  rw [h.bit, decide_eq_true_eq] at hused
  exact ⟨(ho.range r hn).1, hused⟩

theorem appendLoop_sim (htx : k.tx = true) (hi : (k.ic t).inum = i) :
    ∀ (fuel off : Nat) (p : List UInt8) (D : Disk) (s : Image), p.length ≤ fuel →
      off + p.length ≤ MAXFILE * BSIZE → Owned sb D → D.Live sb i → Blocks s D →
      (∃ D' s', Fs.writeLoop sb t fuel off p (k.put t D) = .ok (off + p.length, k.put t D') ∧
        appendLoop fuel (D.ino i) off p s = .ok ((D'.ino i, off + p.length), s') ∧
        (∀ j, j ≠ i → D'.ino j = D.ino j) ∧ Blocks s' D' ∧ Frame s s') ∨
      (∃ e, Fs.writeLoop sb t fuel off p (k.put t D) = .error e) ∧
        ∃ e, appendLoop fuel (D.ino i) off p s = .error e := by
  subst hi
  intro fuel
  induction fuel with
  | zero =>
    intro off p D s hp _ _ _ h
    obtain rfl : p = [] := List.length_eq_zero_iff.mp (by omega)
    exact .inl ⟨D, s, rfl, rfl, fun _ _ => rfl, h, fun _ _ => rfl, rfl⟩
  | succ fuel ih =>
    intro off p D s hp hmax ho hl h
    unfold Fs.writeLoop appendLoop
    by_cases h0 : p = []
    · subst h0
      exact .inl ⟨D, s, rfl, rfl, fun _ _ => rfl, h, fun _ _ => rfl, rfl⟩
    have h0' : p.length ≠ 0 := fun h => h0 (List.length_eq_zero_iff.mp h)
    have hbn : off / BSIZE < MAXFILE := by
      dsimp only [MAXFILE, NDIRECT, NINDIRECT, BSIZE] at *
      omega
    -- the two programs cut the data in the same way
    have hcut : (off / BSIZE + 1) * BSIZE - off = BSIZE - off % BSIZE := by
      dsimp only [BSIZE]
      omega
    have hrest : off - off / BSIZE * BSIZE = off % BSIZE := by
      dsimp only [BSIZE]
      omega
    have hpos := chunk_pos h0' off
    have hle := chunk_le off p.length
    have hdrop : (p.drop (chunk off p.length)).length = p.length - chunk off p.length :=
      List.length_drop ..
    have hsum : off + chunk off p.length + (p.drop (chunk off p.length)).length =
        off + p.length := by
      omega
    rw [if_neg h0, if_neg h0, if_neg (not_not.2 hbn), hcut, hrest]
    have hspec := bmap_spec (t := t) (s := k) (n := 0) ho hl hbn (False.elim : False → _)
    rcases block_sim h htx rfl ho hl hbn with ⟨a, D₁, s₁, hr, hr', hj₁, h₁, hf₁⟩ | ⟨⟨e, hr⟩, hnone⟩
    · obtain ⟨E, heq, he, ha, ha0, -⟩ := hspec.of_ok hr
      obtain rfl := put_inj heq fun j hne => (hj₁ j hne).trans (he.other j hne).symm
      subst ha
      obtain ⟨hlow, hlt⟩ := h₁.held he.owned ha0
      have hread : rsect (D₁.addr sb (k.ic t).inum (off / BSIZE)) s₁ =
          .ok (D₁.blk (D₁.addr sb (k.ic t).inum (off / BSIZE)), s₁) := by
        have := h₁.nsect
        have := h₁.high
        rw [rsect_eq, if_pos (by omega), h₁.blk _ hlow]
      rw [seq_ok hr, seq_ok hr']
      dsimp only
      rw [seq_modD, seq_logWrite (by exact htx), seq_ok hread, seq_ok (wsect_eq ..)]
      have h₂ := h₁.write hlow hlt ((D₁.blk (D₁.addr sb (k.ic t).inum (off / BSIZE))).memmove
        (off % BSIZE) (p.take (chunk off p.length)))
      have ho₂ := owned_setData he.owned ha0
        ((D₁.blk (D₁.addr sb (k.ic t).inum (off / BSIZE))).memmove (off % BSIZE)
          (p.take (chunk off p.length)))
      have hl₁ : D₁.Live sb (k.ic t).inum := (Disk.live_congr (he.type_eq _)).mpr hl
      have hgo := ih (off + chunk off p.length) (p.drop (chunk off p.length)) _ _ (by omega)
        (by omega) ho₂ hl₁ h₂
      rw [hsum] at hgo
      rcases hgo with ⟨D', s', hw, hm, hj, h', hf⟩ | hbad
      · refine .inl ⟨D', s', hw, hm, fun j hne => (hj j hne).trans (hj₁ j hne), h', ?_⟩
        exact hf₁.trans ((Blocks.frame_write hlow _).trans hf)
      · exact .inr hbad
    · rw [seq_error hr]
      refine .inr ⟨⟨e, rfl⟩, ?_⟩
      cases hr' : block (D.ino (k.ic t).inum) (off / BSIZE) s with
      | error e => exact ⟨e, seq_error hr'⟩
      | ok y =>
        obtain ⟨⟨din, x⟩, s₁⟩ := y
        have hread : rsect x s₁ = .error .one := by
          rw [rsect_eq, if_neg (Nat.not_lt.2 (hnone _ _ hr'))]
        refine ⟨.one, ?_⟩
        rw [seq_ok hr']
        exact seq_error hread

end

/-! ## Files without gaps -/

/-- The number of blocks of a file, without and with its indirect block. -/
def dataBlocks (size : Nat) : Nat := (size + (BSIZE - 1)) / BSIZE

def usedBlocks (size : Nat) : Nat :=
  dataBlocks size + if NDIRECT < dataBlocks size then 1 else 0

/-- Every file has the blocks that its size asks for and no others. -/
structure Exact (D : Disk) : Prop where
  owned : Owned sb D
  max : ∀ i, D.Live sb i → (D.ino i).size ≤ MAXFILE * BSIZE
  addr : ∀ i, D.Live sb i → ∀ n, D.addr sb i n ≠ 0 ↔ n < dataBlocks (D.ino i).size
  indirect : ∀ i, D.Live sb i →
    (D.ptr sb (.indirect i) ≠ 0 ↔ NDIRECT < dataBlocks (D.ino i).size)

theorem dataBlocks_zero : dataBlocks 0 = 0 := by decide

theorem dataBlocks_le {size : Nat} (h : size ≤ MAXFILE * BSIZE) : dataBlocks size ≤ MAXFILE := by
  dsimp only [dataBlocks, MAXFILE, NDIRECT, NINDIRECT, BSIZE] at *
  omega

theorem dataBlocks_mono {a b : Nat} (h : a ≤ b) : dataBlocks a ≤ dataBlocks b := by
  dsimp only [dataBlocks, BSIZE]
  omega

theorem places_ino {V : Finset Nat} {r : Ptr} (h : r ∈ places i V) : r.ino = i := by
  obtain ⟨bn, -, hv⟩ := Finset.mem_biUnion.1 h
  rcases mem_visit.1 hv with hp | ⟨-, rfl⟩
  · exact Disk.place_ino hp
  · rfl

theorem visits_append {size n : Nat} (hn : n ≠ 0) :
    visits size n = Finset.Ico (size / BSIZE) (dataBlocks (size + n)) := by
  unfold visits span
  rw [if_neg hn]
  congr 1
  dsimp only [dataBlocks, BSIZE]
  omega

theorem mem_visits_append {size n bn : Nat} (hn : n ≠ 0) (hlow : dataBlocks size ≤ bn)
    (hhigh : bn < dataBlocks (size + n)) : bn ∈ visits size n := by
  rw [visits_append hn, Finset.mem_Ico]
  refine ⟨?_, hhigh⟩
  dsimp only [dataBlocks, BSIZE] at hlow ⊢
  omega

/-- The blocks that an append takes. -/
theorem Exact.lacking_card (h : Exact D) (hl : D.Live sb i) {n : Nat} (hn : n ≠ 0)
    (hmax : (D.ino i).size + n ≤ MAXFILE * BSIZE) :
    usedBlocks (D.ino i).size + (lacking sb D (places i (visits (D.ino i).size n))).card =
      usedBlocks ((D.ino i).size + n) := by
  generalize hsz : (D.ino i).size = size at *
  have haddr : ∀ bn, D.addr sb i bn ≠ 0 ↔ bn < dataBlocks size := hsz ▸ h.addr i hl
  have hind : D.ptr sb (.indirect i) ≠ 0 ↔ NDIRECT < dataBlocks size := hsz ▸ h.indirect i hl
  have hle := dataBlocks_mono (Nat.le_add_right size n)
  have htop := dataBlocks_le hmax
  -- a place for each new block, and the indirect slot if the file comes to need it
  let news := (Finset.Ico (dataBlocks size) (dataBlocks (size + n))).image fun bn =>
    (Disk.place i bn).getD (.indirect i)
  let inds : Finset Ptr :=
    if dataBlocks size ≤ NDIRECT ∧ NDIRECT < dataBlocks (size + n) then {.indirect i} else ∅
  have hnews : ∀ r, r ∈ news ↔
      ∃ bn, dataBlocks size ≤ bn ∧ bn < dataBlocks (size + n) ∧ Disk.place i bn = some r := by
    intro r
    simp only [news, Finset.mem_image, Finset.mem_Ico]
    constructor
    · rintro ⟨bn, ⟨hlow, hhigh⟩, hr⟩
      obtain ⟨r', hr'⟩ := Disk.exists_place i (show bn < MAXFILE by omega)
      rw [hr', Option.getD_some] at hr
      exact ⟨bn, hlow, hhigh, hr ▸ hr'⟩
    · rintro ⟨bn, hlow, hhigh, hr⟩
      exact ⟨bn, ⟨hlow, hhigh⟩, by rw [hr, Option.getD_some]⟩
  have hinds : ∀ r, r ∈ inds ↔
      r = .indirect i ∧ dataBlocks size ≤ NDIRECT ∧ NDIRECT < dataBlocks (size + n) := by
    intro r
    simp only [inds]
    split
    next hc => simp [hc]
    next hc => simp [hc]
  have hset : lacking sb D (places i (visits size n)) = news ∪ inds := by
    ext r
    rw [mem_lacking, Finset.mem_union, hnews, hinds, places, Finset.mem_biUnion]
    constructor
    · rintro ⟨⟨bn, hbn, hv⟩, h0⟩
      rw [visits_append hn, Finset.mem_Ico] at hbn
      rcases mem_visit.1 hv with hp | ⟨hd, rfl⟩
      · refine .inl ⟨bn, ?_, hbn.2, hp⟩
        rw [← Disk.addr_of_place hp] at h0
        exact Nat.not_lt.1 fun hlt => (haddr bn).2 hlt h0
      · exact .inr ⟨rfl, Nat.not_lt.1 fun hlt => hind.2 hlt h0, by omega⟩
    · rintro (⟨bn, hlow, hhigh, hp⟩ | ⟨rfl, hlow, hhigh⟩)
      · refine ⟨⟨bn, mem_visits_append hn hlow hhigh, mem_visit.2 (.inl hp)⟩, ?_⟩
        rw [← Disk.addr_of_place hp]
        by_contra hne
        have := (haddr bn).1 hne
        omega
      · refine ⟨⟨NDIRECT, mem_visits_append hn hlow hhigh, mem_visit.2 (.inr ⟨le_rfl, rfl⟩)⟩, ?_⟩
        by_contra hne
        have := hind.1 hne
        omega
  have hdisj : Disjoint news inds := by
    rw [Finset.disjoint_left]
    intro r hr hr'
    obtain ⟨bn, -, -, hp⟩ := (hnews r).1 hr
    rw [((hinds r).1 hr').1] at hp
    exact Disk.place_ne_indirect hp
  have hcard : news.card = dataBlocks (size + n) - dataBlocks size := by
    rw [Finset.card_image_of_injOn, Nat.card_Ico]
    intro a ha b hb hab
    simp only [Finset.coe_Ico, Set.mem_Ico] at ha hb
    obtain ⟨r, hr⟩ := Disk.exists_place i (show a < MAXFILE by omega)
    obtain ⟨r', hr'⟩ := Disk.exists_place i (show b < MAXFILE by omega)
    simp only [hr, hr', Option.getD_some] at hab
    exact (Disk.place_inj hr (hab ▸ hr')).2
  rw [hset, Finset.card_union_of_disjoint hdisj, hcard]
  simp only [usedBlocks, inds]
  split <;> split <;> split <;> simp <;> omega

/-! ## What the loop does -/

theorem Blocks.freeList_length (h : Blocks s D) :
    (D.freeList sb).length + s.freeblock = FSSIZE := by
  have hfilter : D.freeList sb = (List.range FSSIZE).filter fun b => decide (s.freeblock ≤ b) := by
    refine List.filter_congr fun b _ => ?_
    rw [h.bit]
    by_cases hb : b < s.freeblock
    · simp [hb]
    · simp [hb, Nat.not_lt.1 hb]
  have hcount : ((List.range FSSIZE).filter fun b => decide (s.freeblock ≤ b)).length =
      (Finset.Ico s.freeblock FSSIZE).card := by
    have hset : ((List.range FSSIZE).filter fun b => decide (s.freeblock ≤ b)).toFinset =
        Finset.Ico s.freeblock FSSIZE := by
      ext b
      simp [and_comm]
    rw [← hset, List.toFinset_card_of_nodup (List.nodup_range.filter _)]
  have := h.high
  rw [hfilter, hcount, Nat.card_Ico]
  omega

/-- A kernel with inode `i` locked. -/
def kernel (i : Nat) (D : Disk) : Fs.State where
  disk := D
  ic _ := ⟨i, 1, true, true, D.ino i⟩
  ft _ := ⟨.none, 0, false, false, 0, 0⟩
  proc _ := ⟨none, fun _ => none⟩
  tx := true

/-- What an append leaves, before the inode is written. -/
structure Appended (i : Nat) (p : List UInt8) (s s' : Image) (D D' : Disk) : Prop where
  blocks : Blocks s' D'
  frame : Frame s s'
  writes : Writes sb i (D.ino i).size p D D'
  takes : ∃ m, Takes sb (places i (visits (D.ino i).size p.length)) m D D'
  count : s'.freeblock + usedBlocks (D.ino i).size =
    s.freeblock + usedBlocks ((D.ino i).size + p.length)

/-- The loop fails only if the blocks do not suffice. -/
theorem appendLoop_spec (h : Blocks s D) (he : Exact D) (hl : D.Live sb i) {p : List UInt8}
    (hp : p ≠ []) (hmax : (D.ino i).size + p.length ≤ MAXFILE * BSIZE) :
    Run (fun _ => FSSIZE + usedBlocks (D.ino i).size <
        s.freeblock + usedBlocks ((D.ino i).size + p.length))
      (fun r s' => ∃ D', r = (D'.ino i, (D.ino i).size + p.length) ∧ Appended i p s s' D D')
      (appendLoop p.length (D.ino i) (D.ino i).size p) s := by
  have hn : p.length ≠ 0 := fun h0 => hp (List.length_eq_zero_iff.1 h0)
  have hcard := he.lacking_card hl hn hmax
  have hfree := h.freeList_length
  let k := kernel i D
  have hi : (k.ic 0).inum = i := rfl
  have hwrites := writeLoop_spec (s := k) (t := 0) hi p.length (D.ino i).size p D le_rfl hmax
    he.owned hl (False.elim : False → _)
  have htakes := (Logged.writeLoop_erases layout 0 p.length (D.ino i).size p).run
    (Logged.writeLoop_logged layout (s := k) (t := 0) hi rfl p.length (D.ino i).size p D ∅ le_rfl
      hmax he.owned hl)
  rcases appendLoop_sim (k := k) (t := 0) rfl hi p.length (D.ino i).size p D s le_rfl hmax
    he.owned hl h with ⟨D', s', hr, hr', hj, hb, hf⟩ | ⟨⟨e, hr⟩, e', hr'⟩
  · obtain ⟨E, heq, -, hw, -⟩ := hwrites.of_ok hr
    obtain rfl := put_inj heq fun j hne => (hj j hne).trans (hw.other j hne).symm
    obtain ⟨_, E, m, heq', -, ht⟩ := htakes.of_ok hr
    have hE : ∀ j, j ≠ i → E.ino j = D.ino j := fun j hne =>
      ht.other j fun r hr => (places_ino hr).trans_ne (Ne.symm hne)
    obtain rfl := put_inj (congrArg Prod.fst heq') fun j hne => (hj j hne).trans (hE j hne).symm
    refine Run.of_eq hr' ⟨D', rfl, hb, hf, hw, ⟨m, ht⟩, ?_⟩
    have hlen := congrArg List.length ht.free
    rw [List.length_append, ht.count] at hlen
    have := hb.freeList_length
    omega
  · unfold Run
    rw [hr']
    have := (htakes.of_error hr).2
    show FSSIZE + usedBlocks (D.ino i).size <
      s.freeblock + usedBlocks ((D.ino i).size + p.length)
    omega

/-- A file that becomes too long ends the program. -/
theorem appendLoop_bound (fuel : Nat) (din : Dinode) (off : Nat) (p : List UInt8) (s : Image)
    (hp : p.length ≤ fuel) (hoff : off ≤ MAXFILE * BSIZE) :
    Run (fun _ => True) (fun _ _ => off + p.length ≤ MAXFILE * BSIZE)
      (appendLoop fuel din off p) s := by
  induction fuel generalizing din off p s with
  | zero => exact Run.pure (by omega)
  | succ fuel ih =>
    unfold appendLoop
    refine Run.ite (fun h0 => Run.pure (by simpa [h0] using hoff)) fun h0 => ?_
    refine Run.ite (fun _ => Run.throw trivial) fun hfbn => ?_
    have h0' : p.length ≠ 0 := fun h => h0 (List.length_eq_zero_iff.mp h)
    rw [not_not] at hfbn
    refine Run.bind (P := fun _ _ => True) Run.trivial fun x s₁ _ => ?_
    refine Run.bind (P := fun _ _ => True) Run.trivial fun buf s₂ _ => ?_
    refine Run.bind (P := fun _ _ => True) Run.trivial fun _ s₃ _ => ?_
    refine (ih _ _ _ _ ?_ ?_).mono fun _ _ hle => ?_
    · rw [List.length_drop]
      dsimp only [BSIZE]
      omega
    · dsimp only [MAXFILE, NDIRECT, NINDIRECT, BSIZE] at *
      omega
    · rw [List.length_drop] at hle
      omega

end Xv6.Mkfs
