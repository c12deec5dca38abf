import Xv6.Fs.Ownership

/-!
# A file is an array of bytes

The abstract file is its list of bytes (`Disk.content`).  A write at an offset within
the file replaces what it covers and may make the list longer; a read is a part of the
list.  The inode is a cached one, so the disk is the one with the cached copy in it
(`State.over`).
-/

namespace Xv6.Fs

open List

variable {sb : Superblock} {dev : Devsw} {D D' : Disk} {s s' : State} {t : ISlot}

/-- The bytes of inode `i`. -/
def Disk.content (D : Disk) (sb : Superblock) (i : Nat) : List UInt8 :=
  D.bytes sb i 0 (D.ino i).size

/-- `l` with `src` written at `off`. -/
def overwrite (l : List UInt8) (off : Nat) (src : List UInt8) : List UInt8 :=
  l.take off ++ src ++ l.drop (off + src.length)

theorem overwrite_read {l src : List UInt8} {off : Nat} (h : off ≤ l.length) :
    ((overwrite l off src).drop off).take src.length = src := by
  rw [overwrite, append_assoc, drop_append_of_le_length (by rw [length_take]; omega),
    drop_take_self, nil_append, take_left]

section
variable {i off n : Nat} {src : List UInt8}

@[simp] theorem content_length (D : Disk) (i : Nat) :
    (D.content sb i).length = (D.ino i).size := by
  rw [Disk.content, Disk.bytes, length_map, length_range]

theorem content_getElem? (D : Disk) (i k : Nat) :
    (D.content sb i)[k]? = if k < (D.ino i).size then some (D.data sb i k) else none := by
  unfold Disk.content Disk.bytes
  rw [getElem?_map]
  split
  next h => rw [getElem?_range h, Option.map_some, Nat.zero_add]
  next h => rw [getElem?_eq_none (by rw [length_range]; omega), Option.map_none]

/-- The part of the list that `readi` copies out. -/
theorem content_read (h : off ≤ (D.ino i).size) :
    D.bytes sb i off (clip (D.ino i).size off n) = ((D.content sb i).drop off).take n := by
  apply ext_getElem?
  intro k
  rw [getElem?_take, getElem?_drop, content_getElem?]
  unfold Disk.bytes
  rw [getElem?_map]
  by_cases hk : k < clip (D.ino i).size off n
  · have hkn : k < n ∧ off + k < (D.ino i).size := by
      unfold clip at hk
      split at hk <;> omega
    rw [getElem?_range hk, if_pos hkn.1, if_pos hkn.2, Option.map_some]
  · rw [getElem?_eq_none (by rw [length_range]; omega), Option.map_none]
    unfold clip at hk
    split at hk
    · rw [if_neg (by omega : ¬ off + k < (D.ino i).size), ite_self]
    · rw [if_neg hk]

theorem Wrote.content_self (h : Wrote sb i off src D D') (hle : off ≤ (D.ino i).size) :
    D'.content sb i = overwrite (D.content sb i) off src := by
  apply ext_getElem?
  intro k
  have htake : ((D.content sb i).take off).length = off := by
    rw [length_take, content_length]
    omega
  rw [overwrite, content_getElem?, h.size, h.data]
  rcases lt_or_ge k off with h1 | h1
  · have hk : k < (D.ino i).size := by omega
    rw [append_assoc, getElem?_append_left (by omega), getElem?_take, if_pos h1,
      content_getElem?, if_pos hk, if_pos (lt_max_of_lt_left hk), if_neg fun hc => by omega]
  rcases lt_or_ge k (off + src.length) with h2 | h2
  · rw [append_assoc, getElem?_append_right (by omega), htake,
      getElem?_append_left (by omega), if_pos (lt_max_of_lt_right h2), if_pos ⟨rfl, h1, h2⟩,
      getD_eq_getElem?_getD, getElem?_eq_getElem (by omega), Option.getD_some]
  · have hlen : ((D.content sb i).take off ++ src).length = off + src.length := by
      rw [length_append, htake]
    have hout : ¬ (i = i ∧ off ≤ k ∧ k < off + src.length) := by omega
    rw [getElem?_append_right (by omega), hlen, getElem?_drop, content_getElem?,
      Nat.add_sub_cancel' h2, if_neg hout]
    have hiff : k < max (D.ino i).size (off + src.length) ↔ k < (D.ino i).size := by
      rw [lt_max_iff]
      omega
    simp only [hiff]

theorem Wrote.content_other (h : Wrote sb i off src D D') {j : Nat} (hj : j ≠ i) :
    D'.content sb j = D.content sb j := by
  unfold Disk.content
  rw [h.other j hj]
  refine bytes_congr fun o _ _ => ?_
  rw [h.data, if_neg fun hc => hj hc.1]

end

/-! ## Reading and writing -/

theorem readi_content {off n : Nat} (hn : NoHoles sb (s.over t))
    (hl : (s.over t).Live sb (s.ic t).inum) (hd : (s.ic t).copy.type ≠ T_DEV)
    (hoff : off ≤ (s.ic t).copy.size) (hlt : off + n < 2 ^ 32) :
    readi sb dev t off n s =
      .ok (some ((((s.over t).content sb (s.ic t).inum).drop off).take n), s) := by
  have hmap : (s.over t).Mapped sb (s.ic t).inum off (clip (s.ic t).copy.size off n) := by
    intro k _ _ hk
    refine hn _ hl k ?_
    rw [over_size]
    unfold clip at hk
    split at hk <;> omega
  have hrej : ¬ Rejected (s.ic t).copy off n := by
    unfold Rejected
    omega
  rw [readi_eq hl hd hrej hmap, ← content_read (by rw [over_size]; exact hoff), over_size]

/-- A write fills in what it covers, so nothing is missing afterwards. -/
theorem Wrote.noHoles {i off : Nat} {src : List UInt8} (h : Wrote sb i off src D D')
    (hn : NoHoles sb D) (hle : off ≤ (D.ino i).size) : NoHoles sb D' := by
  intro j hj n hlt
  have hj' : D.Live sb j := (Disk.live_congr (h.type_eq j)).mp hj
  by_cases hlow : n * BSIZE < (D.ino j).size
  · rw [h.addr j n (hn j hj' n hlow)]
    exact hn j hj' n hlow
  · have hji : j = i := by
      by_contra hne
      rw [h.other j hne] at hlt
      exact hlow hlt
    subst hji
    rw [h.size] at hlt
    refine h.mapped n (fun h0 => ?_) ?_ ?_
    · rw [h0, length_nil] at hlt
      omega
    · dsimp only [BSIZE] at *
      omega
    · omega

/-- For every state with block ownership and every cached inode of a file or directory.  `readi`
returns a part of the bytes and `writei` replaces one; a write within the bounds of a file, in a
transaction and with enough free blocks, succeeds, and leaves the other inodes and their bytes as
they are; out of bounds both return -1 and change nothing. -/
theorem file_bytes (ho : Owned sb (s.over t)) (hn : NoHoles sb (s.over t))
    (hl : (s.over t).Live sb (s.ic t).inum) (hd : (s.ic t).copy.type ≠ T_DEV) :
    (∀ off n, off ≤ (s.ic t).copy.size → off + n < 2 ^ 32 →
      readi sb dev t off n s =
        .ok (some ((((s.over t).content sb (s.ic t).inum).drop off).take n), s)) ∧
    (∀ off src, off ≤ (s.ic t).copy.size → off + src.length ≤ MAXFILE * BSIZE →
      (s.tx = true →
        Room sb (s.over t) (span off src.length + need sb (s.over t) (s.ic t).inum) →
        ∃ s', writei sb dev t src off s = .ok (some src.length, s')) ∧
      ∀ r s', writei sb dev t src off s = .ok (r, s') →
        r = some src.length ∧ readi sb dev t off src.length s' = .ok (some src, s') ∧
        (s'.over t).content sb (s.ic t).inum =
          overwrite ((s.over t).content sb (s.ic t).inum) off src ∧
        (s'.ic t).copy.size = max (s.ic t).copy.size (off + src.length) ∧
        ∀ j, j ≠ (s.ic t).inum → (s'.over t).ino j = (s.over t).ino j ∧
          (s'.over t).content sb j = (s.over t).content sb j) ∧
    (∀ off n, (s.ic t).copy.size < off ∨ 2 ^ 32 ≤ off + n →
      readi sb dev t off n s = .ok (none, s)) ∧
    ∀ off src, (s.ic t).copy.size < off ∨ 2 ^ 32 ≤ off + src.length →
      writei sb dev t src off s = .ok (none, s) := by
  refine ⟨fun off n hoff hlt => ?_, fun off src hoff hmax => ⟨fun htx hr => ?_, fun r s' hs => ?_⟩,
    fun off n h => readi_reject hd h, fun off src h => writei_reject hd h⟩
  · exact readi_content hn hl hd hoff hlt
  · cases hs : writei sb dev t src off s with
    | ok x =>
      have h := (writei_spec ho hl hd hoff hmax fun _ : True => hr).of_ok hs
      exact ⟨x.2, by rw [← h.1]⟩
    | error e =>
      rcases (writei_spec ho hl hd hoff hmax fun _ : True => hr).of_error hs with ⟨-, h⟩ | ⟨-, h⟩
      · exact absurd trivial h
      · rw [htx] at h
        cases h
  · obtain ⟨rfl, D', hw, hs'⟩ :=
      (writei_spec ho hl hd hoff hmax fun h : False => h.elim).of_ok hs
    obtain ⟨rfl, hi⟩ := over_wrote hw (hs'.imp_right And.left)
    have hle : off ≤ ((s.over t).ino (s.ic t).inum).size := by rw [over_size]; exact hoff
    have hsize := hw.size
    have htype := hw.type_eq (s.ic t).inum
    rw [over_size, ← hi, over_size] at hsize
    refine ⟨rfl, ?_, hw.content_self hle, hsize, fun j hj => ⟨hw.other j hj, hw.content_other hj⟩⟩
    rw [readi_content (hw.noHoles hn hle) (hi ▸ (Disk.live_congr htype).mpr hl) ?_ (by omega) ?_,
      hi, hw.content_self hle, overwrite_read (by rw [content_length]; exact hle)]
    · rw [← hi, over_type, hi, over_type] at htype
      rw [htype]
      exact hd
    · dsimp only [MAXFILE, NDIRECT, NINDIRECT, BSIZE] at hmax
      omega

/-- Two bytes written to an empty file and read back. -/
theorem file_bytes_two : ∃ s s' : State, (s.ic 1).copy.size = 0 ∧
    writei mkfsSb nullDev 1 [7, 8] 0 s = .ok (some 2, s') ∧
    readi mkfsSb nullDev 1 0 2 s' = .ok (some [7, 8], s') := by
  obtain ⟨s, hs, hp⟩ := exists_reach mkfsSb nullDev
    (l := [(0, .openFile [102] (O_CREATE ||| O_RDWR))])
    (P := fun s => 0 < (s.ic 1).ref ∧ (s.ic 1).valid = true ∧ (s.ic 1).copy.size = 0 ∧
      (s.ic 1).copy.type = T_FILE ∧ s.disk.bit 60 = false ∧ s.disk.bit 61 = false)
    rootImage_mkfs.wellFormed (by decide +kernel)
  obtain ⟨hr, hv, hsize, hty, h60, h61⟩ := of_decide_eq_true hp
  have hg := (reach_idle hs).good
  obtain ⟨hc, h0⟩ := hg.clean 1 hr hv
  have hover : ({ s with tx := true } : State).over 1 = s.disk := over_eq hc
  have hroom : Room mkfsSb s.disk (span 0 2 + need mkfsSb s.disk (s.ic 1).inum) := by
    refine Room.mono ⟨[60, 61], by decide, rfl, ?_⟩ (by unfold need; split <;> decide)
    simp [h60, h61, mkfsSb]
  have ho : Owned mkfsSb (({ s with tx := true } : State).over 1) := by
    rw [hover]
    exact hg.disk.toOwned
  have hn : NoHoles mkfsSb (({ s with tx := true } : State).over 1) := by
    rw [hover]
    exact hg.disk.nohole
  have hl : (({ s with tx := true } : State).over 1).Live mkfsSb (s.ic 1).inum := by
    rw [hover]
    exact ⟨hg.range 1 hr, h0⟩
  have hd : (s.ic 1).copy.type ≠ T_DEV := by
    rw [hty]
    decide
  obtain ⟨hok, hw⟩ := (@file_bytes mkfsSb nullDev { s with tx := true } 1 ho hn hl hd).2.1 0 [7, 8]
    (Nat.zero_le _) (by decide)
  obtain ⟨s', hs'⟩ := hok rfl (by rw [hover]; exact hroom)
  exact ⟨{ s with tx := true }, s', hsize, hs', (hw _ s' hs').2.1⟩

end Xv6.Fs
